/-
  `REP`: the next instruction is repeated.

  `dsp_rep` saves `LC`, loads the count into it, and sets `loop_rep`.  From then
  on `dsp_postexecute_update_pc` counts `LC` down and stays on the instruction,
  until the count is 0 and the saved `LC` comes back.  The end of a `DO` loop is
  tested after every execution, also after the last one, when `LC` is the count
  of the loop again.
-/
import Aranym.Dsp.Loops

namespace Aranym.Dsp

open Lib

variable {d d' : Dsp} {inst : U32}

/-! ## Instructions that can be repeated -/

/-- One word, no branch, and neither `LC` nor its saved copy as a destination. -/
def Dispatch.Repeatable (inst : U32) : Dispatch → Prop
  | .parallel a => a ≠ .undefined ∧ ∀ ea ∈ pmEas inst, ¬ EaLong ea
  | .single k => k.isStraight inst = true ∧ (∀ ea ∈ k.eas inst, ¬ EaLong ea) ∧
      regLC ∉ k.targets inst ∧ regLCSAVE ∉ k.targets inst

instance (inst : U32) : ∀ k : Dispatch, Decidable (k.Repeatable inst)
  | .parallel _ => inferInstanceAs (Decidable (_ ∧ _))
  | .single _ => inferInstanceAs (Decidable (_ ∧ _ ∧ _ ∧ _))

/-- The instructions that `REP` repeats. -/
def Repeatable (inst : U32) : Prop := (dispatch inst).Repeatable inst

instance (inst : U32) : Decidable (Repeatable inst) :=
  inferInstanceAs (Decidable (Dispatch.Repeatable _ _))

/-- What the repetition depends on. -/
structure KeepsRep (d d' : Dsp) : Prop where
  place : d'.place = (d.pc, 1)
  lc : d'.reg regLC = d.reg regLC
  lcsave : d'.reg regLCSAVE = d.reg regLCSAVE
  repState : d'.repState = d.repState

theorem keepsRep_exec (h : Repeatable d.curInst) : KeepsRep d d.exec := by
  unfold Repeatable at h
  cases hd : dispatch d.curInst with
  | parallel a =>
    rw [hd] at h
    obtain ⟨ha, hea⟩ := h
    have he : Effect (fun _ => False) False d.fetched d.exec := by
      rw [exec_parallel hd]
      exact (Effect.refl _).parallel d.curInst a False.elim False.elim
    refine ⟨?_, he.keep regLC (.inr (by decide)) id, he.keep regLCSAVE (.inl rfl) id, he.repState⟩
    rw [exec_parallel hd, place_parmoveWrite, place_callAlu ha, place_parmoveRead hea]
    rfl
  | single k =>
    rw [hd] at h
    obtain ⟨hk, hea, hlc, hsave⟩ := h
    have he : Effect (· ∈ k.targets d.curInst) False d.fetched d.exec := by
      rw [exec_single hd]
      exact (Effect.refl _).call (Handler.isControl_of_isStraight hk)
        (fun _ => id) False.elim False.elim False.elim
    refine ⟨?_, he.keep regLC (.inr (by decide)) hlc,
      he.keep regLCSAVE (.inl rfl) hsave, he.repState⟩
    rw [exec_single hd, place_call hk hea]
    rfl

/-! ## One execution -/

/-- The instruction at `q` is executed `n` more times, and after that `LC` is `lc`. -/
structure Repeating (q : U16) (lc : U32) (n : ℕ) (d : Dsp) : Prop where
  pc : d.pc = q
  repState : d.repState = (true, false)
  left : passes ((d.reg regLC).setWidth 16) = n
  saved : d.reg regLCSAVE = lc

namespace Repeating

variable {q : U16} {lc : U32} {n : ℕ}

theorem loopRep (h : Repeating q lc n d) : d.loopRep = true := congrArg Prod.fst h.repState

theorem kept (h : Repeating q lc n d) (hk : KeepsRep d d') :
    Repeating q lc n d' ∧ d'.curInstLen = 1 := by
  obtain ⟨hpc, hlen⟩ := Prod.mk.inj hk.place
  refine ⟨⟨hpc.trans h.pc, hk.repState.trans h.repState, ?_, hk.lcsave.trans h.saved⟩, hlen⟩
  rw [hk.lc]
  exact h.left

theorem updateRep_eq (h : Repeating q lc n d) : d.updateRep =
    if (d.reg regLC - 1) &&& 0xffff = 0 then
      { (d.setReg regLC ((d.reg regLC - 1) &&& 0xffff)).setReg regLC lc with loopRep := false }
    else { d.setReg regLC ((d.reg regLC - 1) &&& 0xffff) with curInstLen := 0 } := by
  have hon : d.pcOnRep = false := congrArg Prod.snd h.repState
  unfold updateRep
  dsimp only
  rw [if_pos h.loopRep, hon, if_neg Bool.false_ne_true, reg_setReg_self,
    reg_setReg_of_ne _ (by decide), h.saved]
  exact ite_not _ _ _

/-- **Not the last execution**: the instruction stays current. -/
theorem again (h : Repeating q lc n d) (hi : Repeatable d.curInst) (hn : n ≠ 1) :
    Repeating q lc (n - 1) d.beforeLoop := by
  obtain ⟨hx, -⟩ := h.kept (keepsRep_exec hi)
  -- only the low 16 bits of `LC` decide, whatever the `REP` has put above them
  have hlc : (d.exec.reg regLC).setWidth 16 - 1 ≠ 0 := by
    intro h0
    exact hn (hx.left.symm.trans ((passes_eq_one_iff _).2 h0))
  have hne : ¬ (d.exec.reg regLC - 1) &&& 0xffff = 0 := fun h0 => hlc ((pred_eq_zero_iff _).1 h0)
  rw [beforeLoop, hx.updateRep_eq, if_neg hne]
  refine ⟨?_, hx.repState, ?_, ?_⟩
  · exact (BitVec.add_zero _).trans hx.pc
  · change passes (((d.exec.setReg regLC _).reg regLC).setWidth 16) = _
    rw [reg_setReg_self, setWidth_pred, passes_pred hlc, hx.left]
  · exact (reg_setReg_of_ne _ (by decide) _).trans hx.saved

theorem done (h : Repeating q lc 1 d) (hi : Repeatable d.curInst) :
    d.beforeLoop.pc = q + 1 ∧ d.beforeLoop.loopRep = false ∧ d.beforeLoop.reg regLC = lc := by
  obtain ⟨hx, hlen⟩ := h.kept (keepsRep_exec hi)
  have hzero : (d.exec.reg regLC - 1) &&& 0xffff = 0 :=
    (pred_eq_zero_iff _).2 ((passes_eq_one_iff _).1 hx.left)
  rw [beforeLoop, hx.updateRep_eq, if_pos hzero]
  refine ⟨?_, rfl, reg_setReg_self _ _ _⟩
  change d.exec.pc + (d.exec.curInstLen : U16) = q + 1
  rw [hx.pc, hlen]
  rfl

theorem between (h : Repeating q lc n d) (hb : Between d d') : Repeating q lc n d' := by
  obtain ⟨c, hc, rfl⟩ := hb
  have hreg : ∀ r, ({ d with core := c } : Dsp).reg r = d.reg r := fun r => congrFun hc r
  refine ⟨h.pc, h.repState, ?_, ?_⟩
  · rw [hreg]; exact h.left
  · rw [hreg]; exact h.saved

theorem uninterrupted (h : Repeating q lc n d.beforeLoop) (hend : ¬ d.beforeLoop.atLoopEnd) :
    d.executeInstruction = d.exec.postexecuteUpdatePc ∧ Repeating q lc n d.executeInstruction := by
  have hpost : d.exec.postexecuteUpdatePc = d.beforeLoop := by
    rw [postexecute_eq, updateLoop_away hend]
  have hexec : d.executeInstruction = d.exec.postexecuteUpdatePc := by
    refine executeInstruction_of_quiet (.inl ?_)
    rw [hpost]
    exact h.loopRep
  refine ⟨hexec, ?_⟩
  rw [hexec, hpost]
  exact h

/-- By induction on the executions: `n - t` are left after `t` of them. -/
theorem run {s : ℕ → Dsp} (h0 : Repeating q lc n (s 0))
    (hnext : ∀ t, Between (s t).executeInstruction (s (t + 1)))
    (hinst : ∀ t < n, Repeatable ((s t).readMemoryP q))
    (hends : ∀ t, t + 1 < n → ¬ (s t).beforeLoop.atLoopEnd) :
    ∀ t < n, Repeating q lc (n - t) (s t) := by
  intro t ht
  induction t with
  | zero => exact h0
  | succ t ih =>
    have h := ih (by omega)
    have hi : Repeatable (s t).curInst := by
      rw [curInst, h.pc]
      exact hinst t (by omega)
    have hagain := h.again hi (by omega)
    exact (hagain.uninterrupted (hends t ht)).2.between (hnext t)

end Repeating

/-! ## REP -/

/-- The words of a `REP`. -/
def repWords (inst : U32) : ℕ := if loopForm inst = 2 ∧ EaLong (field inst 8 6) then 2 else 1

/-- The address of the instruction after the `REP` at `pc`. -/
def repNext (d : Dsp) : U16 := d.pc + repWords d.curInst

/-- How often the `REP` at `pc` executes it: the low 16 bits of the count, 65536 times for 0. -/
def repetitions (d : Dsp) : ℕ :=
  passes (((d.fetched.setReg regLCSAVE (d.reg regLC)).repCount d.curInst).setWidth 16)

theorem place_opcodesRep (hf : loopForm inst ≠ 4) :
    (d.opcodesRep inst).place = (d.pc, d.curInstLen + (repWords inst - 1)) := by
  unfold opcodesRep repWords
  split
  · rename_i h0
    rw [h0]
    rfl
  · rename_i h2
    rw [h2]
    by_cases hea : EaLong (field inst 8 6)
    · rw [if_pos ⟨rfl, hea⟩]
      exact place_calcEa_long hea
    · rw [if_neg fun h => hea h.2]
      exact place_calcEa hea
  · exact absurd ‹_› hf
  · rename_i h6
    rw [h6, if_neg fun h => absurd h.1 (by decide)]
    unfold repReg loopReg
    dsimp only
    split_ifs
    · exact place_limit _ _
    · rfl
  · rename_i h2 _ _
    rw [if_neg fun h => h2 h.1]
    rfl

theorem repWords_pos (inst : U32) : 0 < repWords inst := by
  unfold repWords
  split_ifs <;> decide

/-- A `REP` that has just been executed: the count 0 becomes 65536. -/
theorem updateRep_onRep (hr : d.repState = (true, true)) : d.updateRep =
    { (if d.reg regLC = 0 then d.setReg regLC 0x010000 else d) with pcOnRep := false } := by
  have hl : d.loopRep = true := congrArg Prod.fst hr
  have hon : d.pcOnRep = true := congrArg Prod.snd hr
  unfold updateRep
  rw [if_pos hl, if_pos hon]

theorem repeating_onRep (hr : d.repState = (true, true)) :
    Repeating (d.pc + d.curInstLen) (d.reg regLCSAVE)
      (passes ((d.reg regLC).setWidth 16)) d.updateRep.advance := by
  have hl : d.loopRep = true := congrArg Prod.fst hr
  rw [updateRep_onRep hr]
  split_ifs with h0
  -- the low 16 bits of 65536 are those of 0
  · refine ⟨rfl, congrArg (·, false) hl, ?_, reg_setReg_of_ne _ (by decide) _⟩
    change passes (((d.setReg regLC _).reg regLC).setWidth 16) = _
    rw [reg_setReg_self, h0]
    rfl
  · exact ⟨rfl, congrArg (·, false) hl, rfl, rfl⟩

/-- `REP` starts a repetition of the next instruction. -/
theorem repeating_rep (hd : dispatch d.curInst = .single .rep) (hf : loopForm d.curInst ≠ 4) :
    Repeating d.repNext (d.reg regLC) d.repetitions d.beforeLoop := by
  have hexec : d.exec = d.fetched.rep d.curInst := exec_single hd
  have hrep : d.exec.repState = (true, true) := by rw [hexec]; rfl
  have heffect : Effect (· = regLC) False (d.fetched.setReg regLCSAVE (d.reg regLC))
      ((d.fetched.setReg regLCSAVE (d.reg regLC)).opcodesRep d.curInst) :=
    (Effect.refl _).opcodesRep rfl False.elim False.elim
  have hsaved : d.exec.reg regLCSAVE = d.reg regLC := by
    rw [hexec]
    exact (heffect.keep regLCSAVE (.inl rfl) (by decide)).trans (reg_setReg_self _ _ _)
  have hcount : d.exec.reg regLC =
      (d.fetched.setReg regLCSAVE (d.reg regLC)).repCount d.curInst := by
    rw [hexec]
    exact reg_opcodesRep _ _
  have hplace : d.exec.place = (d.pc, 1 + (repWords d.curInst - 1)) := by
    rw [hexec]
    exact place_opcodesRep hf
  obtain ⟨hpc, hlen⟩ := Prod.mk.inj hplace
  have h := repeating_onRep hrep
  rw [hpc, hlen, Nat.add_sub_cancel' (repWords_pos _), hsaved, hcount] at h
  exact h

/-- **`REP`.**  Between the instructions of the run `s` the CPU can use the host port.  If the next
    word is one that can be repeated, and no end of a `DO` loop comes before the last execution,
    then the instruction is executed as often as the count says, without an interrupt in between,
    and after that, before the end of a loop is tested, `pc` is behind it and `LC` is as before the
    `REP`. -/
theorem rep_repeats (d : Dsp) (s : ℕ → Dsp) (hd : dispatch d.curInst = .single .rep)
    (hf : loopForm d.curInst ≠ 4) (h0 : Between d.executeInstruction (s 0))
    (hnext : ∀ t, Between (s t).executeInstruction (s (t + 1)))
    (hinst : ∀ t < d.repetitions, Repeatable ((s t).readMemoryP d.repNext))
    (hend : ¬ d.beforeLoop.atLoopEnd)
    (hends : ∀ t, t + 1 < d.repetitions → ¬ (s t).beforeLoop.atLoopEnd) :
    d.executeInstruction = d.exec.postexecuteUpdatePc ∧
      (∀ t < d.repetitions, (s t).pc = d.repNext ∧ (s t).loopRep = true) ∧
      (∀ t, t + 1 < d.repetitions → (s t).executeInstruction = (s t).exec.postexecuteUpdatePc) ∧
      ∃ last, last + 1 = d.repetitions ∧ (s last).beforeLoop.pc = d.repNext + 1 ∧
        (s last).beforeLoop.loopRep = false ∧ (s last).beforeLoop.reg regLC = d.reg regLC ∧
        (¬ (s last).beforeLoop.atLoopEnd → (s last).exec.postexecuteUpdatePc.Quiet →
          (s (last + 1)).pc = d.repNext + 1 ∧ (s (last + 1)).reg regLC = d.reg regLC) := by
  obtain ⟨hexec, hstart⟩ := (repeating_rep hd hf).uninterrupted hend
  have hrun := (hstart.between h0).run hnext hinst hends
  have hinst' : ∀ t < d.repetitions, Repeatable (s t).curInst := by
    intro t ht
    rw [curInst, (hrun t ht).pc]
    exact hinst t ht
  have hpos : 0 < d.repetitions := passes_pos _
  refine ⟨hexec, fun t ht => ⟨(hrun t ht).pc, (hrun t ht).loopRep⟩, fun t ht => ?_,
    d.repetitions - 1, by omega, ?_⟩
  · have hagain := (hrun t (by omega)).again (hinst' t (by omega)) (by omega)
    exact (hagain.uninterrupted (hends t ht)).1
  · have hlast := hrun (d.repetitions - 1) (by omega)
    rw [show d.repetitions - (d.repetitions - 1) = 1 by omega] at hlast
    obtain ⟨hpc, hl, hlc⟩ := hlast.done (hinst' _ (by omega))
    refine ⟨hpc, hl, hlc, fun haway hquiet => ?_⟩
    obtain ⟨c, hc, hs⟩ := hnext (d.repetitions - 1)
    rw [executeInstruction_of_quiet hquiet, postexecute_eq, updateLoop_away haway] at hc hs
    rw [hs]
    exact ⟨hpc, (congrFun hc regLC).trans hlc⟩

/-- `rep x:2` with `asl a`: the count in `x:2` has more than 16 bits. -/
def threeShifts : Dsp := program [0x060220, 0x200032, 0x010003]

theorem three_shifts_repeated : threeShifts.repetitions = 3 ∧ threeShifts.repNext = 1 ∧
    ∃ last, last + 1 = 3 ∧ (threeShifts.after last).beforeLoop.pc = 2 ∧
      (threeShifts.after last).beforeLoop.reg regLC = threeShifts.reg regLC := by
  have hn : threeShifts.repetitions = 3 := by decide +kernel
  have hq : threeShifts.repNext = 1 := by decide +kernel
  have hinst : ∀ t < 3, Repeatable ((threeShifts.after t).readMemoryP 1) := by decide +kernel
  have hends : ∀ t < 3, ¬ (threeShifts.after t).beforeLoop.atLoopEnd := by decide +kernel
  obtain ⟨-, -, -, last, hlast, hpc, -, hlc, -⟩ :=
    rep_repeats threeShifts threeShifts.after (by decide +kernel)
    (by decide +kernel) ⟨_, rfl, rfl⟩ (fun t => ⟨_, rfl, Function.iterate_succ_apply' _ _ _⟩)
    (fun t ht => by rw [hn] at ht; rw [hq]; exact hinst t ht) (by decide +kernel)
    (fun t ht => by rw [hn] at ht; exact hends t (by omega))
  exact ⟨hn, hq, last, hlast, hpc, hlc⟩

/-- `do #2,3` with `rep #2` and `nop` as its body -/
def repInLoop : Dsp := (program [0x060280, 0x000003, 0x0602a0, 0x000000]).after 0

/-- The repeated instruction is the last one of a loop: after its two executions `pc` is at the
    start of the body, and `LC` has been counted down for the loop. -/
theorem rep_last_in_loop :
    dispatch repInLoop.curInst = .single .rep ∧ loopForm repInLoop.curInst ≠ 4 ∧
    repInLoop.repetitions = 2 ∧ Repeatable (repInLoop.readMemoryP repInLoop.repNext) ∧
    ¬ repInLoop.beforeLoop.atLoopEnd ∧ repInLoop.repNext = 3 ∧ repInLoop.reg regLC = 2 ∧
    (repInLoop.after 0).pc = 3 ∧ (repInLoop.after 1).pc = 3 ∧
    (repInLoop.after 2).pc = 2 ∧ (repInLoop.after 2).loopRep = false ∧
    (repInLoop.after 2).reg regLC = 1 := by
  decide +kernel

end Aranym.Dsp
