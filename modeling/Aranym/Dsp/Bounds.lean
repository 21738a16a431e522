/-
  The registers and the stack of the DSP in every run.

  A run is of the instructions of any program, in two steps each (`execute`,
  `interrupts`), with accesses of the CPU to the host port between them.
-/
import Aranym.Dsp.Stack

namespace Aranym.Dsp

open Lib
open DspCore (regM0 regOMR)

variable {T : ℕ → Prop} {C : Prop} {d d' : Dsp} {inst : U32}

/-! ## The processor as a machine -/

/-- An instruction of the DSP in two steps, and accesses of the CPU to the host port. -/
inductive Ev where
  | execute
  | interrupts
  | readHost (addr : ℕ)
  | writeHost (addr : ℕ) (value : U8)
  deriving DecidableEq

/-- The output is what a read returns. -/
def step (d : Dsp) : Ev → Dsp × U8
  | .execute => (d.exec.postexecuteUpdatePc, 0)
  | .interrupts => (d.postexecuteInterrupts, 0)
  | .readHost addr => ({ d with core := (d.core.readHost addr).2 }, (d.core.readHost addr).1)
  | .writeHost addr value => ({ d with core := d.core.writeHost addr value }, 0)

namespace Dispatch

/-- The registers written. -/
def targets (inst : U32) : Dispatch → List ℕ
  | .single k => k.targets inst
  | .parallel _ => []

/-- The pairs pushed. -/
def pushes (d : Dsp) (inst : U32) : Dispatch → ℕ
  | .single k => d.pushes inst k
  | .parallel _ => 0

/-- The registers keep their width. -/
def WidthOk (d : Dsp) (inst : U32) : Dispatch → Prop
  | .single k => d.WidthOk inst k
  | .parallel _ => ∀ ea ∈ pmEas inst, d.EaOk ea

instance (d : Dsp) (inst : U32) : ∀ k : Dispatch, Decidable (k.WidthOk d inst)
  | .single k => inferInstanceAs (Decidable (d.WidthOk inst k))
  | .parallel _ => inferInstanceAs (Decidable (∀ ea ∈ pmEas inst, d.EaOk ea))

end Dispatch

/-- The state in which an instruction is called. -/
def fetched (d : Dsp) : Dsp := { d with curInstLen := 1 }

theorem exec_single {k : Handler} (h : dispatch d.curInst = .single k) :
    d.exec = d.fetched.call d.curInst k := by
  unfold exec
  dsimp only
  rw [h]
  rfl

theorem exec_parallel {a : AluHandler} (h : dispatch d.curInst = .parallel a) :
    d.exec = ((d.fetched.parmoveRead d.curInst).1.callAlu d.curInst a).parmoveWrite
      (d.fetched.parmoveRead d.curInst).2 := by
  unfold exec
  dsimp only
  rw [h]
  rfl

/-- No instruction names `SP`, `SSH` or `SSL` as its destination. -/
def KeepsPointers (d : Dsp) : Ev → Prop
  | .execute => ∀ r ∈ (dispatch d.curInst).targets d.curInst, ¬ IsPointer r
  | _ => True

/-- There is room for what is pushed, in 14 entries. -/
def HasRoom (d : Dsp) : Ev → Prop
  | .execute => (d.reg regSP).toNat + (dispatch d.curInst).pushes d.fetched d.curInst ≤ 14
  | .interrupts => d.CallsVector → (d.reg regSP).toNat < 14
  | _ => True

/-- The instruction keeps every register within its width. -/
def KeepsWidths (d : Dsp) : Ev → Prop
  | .execute =>
    (IsRegMove d.curInst → d.fetched.MoveOk d.curInst) ∧
    (dispatch d.curInst).WidthOk d.fetched d.curInst
  | _ => True

instance (d : Dsp) : ∀ e, Decidable (d.KeepsPointers e)
  | .execute => inferInstanceAs (Decidable (∀ r ∈ _, ¬ IsPointer r))
  | .interrupts | .readHost _ | .writeHost _ _ => .isTrue trivial

instance (d : Dsp) : ∀ e, Decidable (d.HasRoom e)
  | .execute => inferInstanceAs (Decidable (_ ≤ _))
  | .interrupts => inferInstanceAs (Decidable (_ → _))
  | .readHost _ | .writeHost _ _ => .isTrue trivial

instance (d : Dsp) : ∀ e, Decidable (d.KeepsWidths e)
  | .execute => inferInstanceAs (Decidable (_ ∧ _))
  | .interrupts | .readHost _ | .writeHost _ _ => .isTrue trivial

/-! ## Between instructions -/

/-- The state of `REP`. -/
def repState (d : Dsp) : Bool × Bool := (d.loopRep, d.pcOnRep)

theorem Effect.repState (h : Effect T C d d') : d'.repState = d.repState :=
  congrArg (fun b => (b.2.1, b.2.2.1)) h.background

theorem repState_stackPush (d : Dsp) (a b : U32) : (d.stackPush a b).repState = d.repState := by
  unfold stackPush
  split_ifs <;> rfl

theorem repState_popSr (d : Dsp) : d.popSr.repState = d.repState := by
  unfold popSr stackTop
  split_ifs <;> rfl

theorem repState_popLoop (d : Dsp) : d.popLoop.repState = d.repState := by
  unfold popLoop stackTop
  split_ifs <;> rfl

theorem repState_popPair (d : Dsp) : d.popPair.2.2.repState = d.repState := by
  unfold popPair stackTop
  split_ifs <;> rfl

theorem repState_call {k : Handler} (hk : k ≠ .rep) (d : Dsp) (inst : U32) :
    (d.call inst k).repState = d.repState := by
  have hrefl : ∀ d : Dsp, Effect (fun _ => True) False d d := fun d => Effect.refl d
  have hbit : ∀ on, (bitJump on true d inst).repState = d.repState := by
    intro on
    have hoperand := ((hrefl d).bitOperand inst False.elim).repState
    rw [bitJump]
    generalize d.bitOperand inst = p at hoperand ⊢
    simp only [if_true]
    split
    · exact (repState_stackPush _ _ _).trans hoperand
    · exact hoperand
  cases hc : k.isControl with
  | false => exact ((hrefl d).call hc
    (fun _ _ => trivial) False.elim False.elim False.elim).repState
  | true =>
    cases k with
    | rep => exact absurd rfl hk
    | «do» =>
      have hcount := ((hrefl d.doEnter).opcodesDo inst trivial False.elim).repState
      exact hcount.trans ((repState_stackPush _ _ _).trans (repState_stackPush d _ _))
    | enddo => exact (repState_popLoop _).trans (repState_popSr d)
    | rti => exact repState_popPair d
    | rts => exact repState_popPair d
    | jscc =>
      have htarget := ((hrefl d).jumpTarget inst 0x0b False.elim).repState
      simp only [call, jscc]
      split_ifs
      · exact (repState_stackPush _ _ _).trans htarget
      · exact htarget
    | jsr =>
      have hcall : ∀ d' : Dsp, d'.repState = d.repState →
          (if d'.interruptState ≠
            .long then d'.pushPc else { d' with interruptState := .none }).repState
            = d.repState := by
        intro d' he
        split_ifs
        · exact (repState_stackPush _ _ _).trans he
        · exact he
      rw [call, jsr]
      by_cases h0 : field inst 12 4 = 0
      · rw [if_pos h0]
        exact hcall d rfl
      · rw [if_neg h0]
        exact hcall _ ((hrefl d).calcEa _ False.elim).repState
    | jsclr => exact hbit false
    | jsset => exact hbit true
    | _ => cases hc

/-- Between instructions `pc` is not on a `REP`. -/
def RepStarted (d : Dsp) : Prop := d.loopRep = true → d.pcOnRep = false

namespace Sound

variable {W F : Prop}

theorem exec (h : Sound W F d) (hp : d.KeepsPointers .execute) (hw : W → d.KeepsWidths .execute)
    (hroom : F → d.HasRoom .execute) : Sound W F d.exec := by
  have hfetch : Sound W F d.fetched := h.congr (fun _ => rfl) rfl
  have hmove : W → IsRegMove d.curInst → d.fetched.MoveOk d.curInst := fun hW => (hw hW).1
  unfold KeepsPointers at hp
  unfold KeepsWidths at hw
  unfold HasRoom at hroom
  cases hk : dispatch d.curInst with
  | single k =>
    rw [hk] at hp hw hroom
    rw [exec_single hk]
    exact hfetch.call k hp (fun hW => (hw hW).2) hmove hroom
  | parallel a =>
    rw [hk] at hw
    rw [exec_parallel hk]
    exact hfetch.part ((Effect.refl d.fetched).parallel d.curInst a (fun hW => (hw hW).2) hmove)

end Sound

theorem repState_exec (d : Dsp) :
    d.exec.repState = d.repState ∨ dispatch d.curInst = .single .rep := by
  cases hk : dispatch d.curInst with
  | single k =>
    by_cases hr : k = .rep
    · exact .inr (by rw [hr])
    · rw [exec_single hk]
      exact .inl (repState_call hr _ _)
  | parallel a =>
    have he := (Effect.refl (T := fun _ => True) d.fetched).parallel d.curInst a
      False.elim False.elim
    rw [exec_parallel hk]
    exact .inl he.repState

theorem count_exec (hr : d.RepStarted) (hw : d.KeepsWidths .execute) (hl : d.exec.loopRep)
    (hpc : d.exec.pcOnRep) : d.exec.reg regLC ≠ 0 := by
  rcases repState_exec d with he | hk
  · have h1 : d.loopRep = true := (congrArg Prod.fst he).symm.trans hl
    have h2 : d.pcOnRep = true := (congrArg Prod.snd he).symm.trans hpc
    rw [hr h1] at h2
    cases h2
  · have hok := hw.2
    rw [hk] at hok
    have hcount := (hok.rep rfl).1
    rw [← reg_opcodesRep] at hcount
    rw [exec_single hk]
    exact hcount

theorem repStarted_updateRep (d : Dsp) : d.updateRep.RepStarted := by
  unfold RepStarted updateRep
  dsimp only
  split_ifs with hl hpc
  · exact fun _ => rfl
  · exact fun _ => rfl
  · exact fun _ => Bool.eq_false_of_not_eq_true hpc
  · intro h; cases h
  · exact fun h => absurd h hl

theorem repStarted_updateLoop (h : d.RepStarted) : d.updateLoop.RepStarted := by
  have hstate : d.updateLoop.repState = d.repState := by
    unfold updateLoop
    dsimp only
    split_ifs
    · exact (repState_popLoop _).trans (repState_popSr _)
    all_goals rfl
  intro hl
  have := h ((congrArg Prod.fst hstate).symm.trans hl)
  exact (congrArg Prod.snd hstate).trans this

theorem repStarted_interrupts (h : d.RepStarted) : d.postexecuteInterrupts.RepStarted := by
  have hr := (Searched.raiseInterrupt d).effect (W := False)
  have hstate : d.postexecuteInterrupts.repState = d.repState := by
    unfold postexecuteInterrupts takeInterrupt endFast
    generalize d.raiseInterrupt = p at hr ⊢
    dsimp only
    split_ifs
    · rfl
    · rfl
    · rfl
    · rfl
    · exact (repState_stackPush _ _ _).trans hr.repState
    all_goals exact hr.repState
  intro hl
  have := h ((congrArg Prod.fst hstate).symm.trans hl)
  exact (congrArg Prod.snd hstate).trans this

/-- What holds in every state of a run. -/
structure Inv (W F : Prop) (d : Dsp) : Prop where
  sound : Sound W F d
  started : d.RepStarted

theorem inv_reset {W F : Prop} (hF : F → d.stackFault = false) : Inv W F d.reset := by
  refine ⟨⟨rfl, rfl, Nat.zero_le _, fun _ r => ?_, fun h => ⟨Nat.zero_le _, hF h⟩⟩,
    fun h => nomatch h⟩
  change Fits (width r) (if r = regOMR then 0x02 else if regM0 ≤ r ∧
    r < regM0 + 8 then 0x00ffff else 0)
  split_ifs with homr hm
  · subst homr; decide
  · obtain ⟨n, rfl⟩ := Nat.exists_eq_add_of_le hm.1
    rw [(width_address (by omega)).2.2]
    decide
  · exact fits_zero

/-- **One step.** -/
theorem Inv.step {W F : Prop} (h : Inv W F d) (e : Ev) (hp : d.KeepsPointers e)
    (hw : W → d.KeepsWidths e) (hroom : F → d.HasRoom e) : Inv W F (d.step e).1 := by
  cases e with
  | execute =>
    exact ⟨(h.sound.exec hp hw hroom).postexecuteUpdatePc fun hW => count_exec h.started (hw hW),
      repStarted_updateLoop (repStarted_updateRep _)⟩
  | interrupts => exact ⟨h.sound.postexecuteInterrupts hroom, repStarted_interrupts h.started⟩
  | readHost addr =>
    exact ⟨h.sound.congr (fun r => congrFun (d.core.registers_step (.readHost addr)) r) rfl,
      h.started⟩
  | writeHost addr value =>
    exact ⟨h.sound.congr (fun r => congrFun (d.core.registers_step (.writeHost addr value)) r) rfl,
      h.started⟩

/-! ## Bounds -/

/-- Every word of the internal program memory is `inst`. -/
def filled (inst : U32) : Dsp :=
  { (default : Dsp) with core := { (default : DspCore) with ramint := fun _ _ => inst } }

/-- `n` instructions. -/
def instructions (n : ℕ) : List Ev := (List.replicate n [Ev.execute, Ev.interrupts]).flatten

/-- An instruction that keeps to the widths of the registers. -/
def KeepsRegisters (d : Dsp) (e : Ev) : Prop := d.KeepsPointers e ∧ d.KeepsWidths e
deriving Decidable

/-- **Registers.**  In every run of instructions that keep to the widths, each register holds a
    value of its width. -/
theorem registers_within_widths (d : Dsp) (es : List Ev)
    (hes : Along step KeepsRegisters d.reset es) (r : ℕ)
    (hr : 0 < registersMask r) : ((run step d.reset es).reg r).toNat < 2 ^ registersMask r := by
  have hinv : Inv True False (run step d.reset es) :=
    run_inv (fun d e h hk => h.step e hk.1 (fun _ => hk.2) False.elim) es _
      (inv_reset False.elim) hes
  have hwidth : width r = registersMask r := if_pos hr.ne'
  rw [← hwidth]
  exact hinv.sound.within trivial r

/-- `bset #5,r0`, again and again -/
theorem bset_r0_within_width :
    ((run step (filled 0x0ad065).reset (instructions 3)).reg regR0).toNat <
      2 ^ registersMask regR0 :=
  registers_within_widths (filled 0x0ad065) (instructions 3) (by decide +kernel) regR0 (by decide)

/-- `bset #23,r0` sets a bit that `R0` does not have, and `rep #0` makes `LC` 65536. -/
theorem registers_beyond_widths :
    ((run step (filled 0x0ad077).reset (instructions 1)).reg regR0).toNat = 0x800000 ∧
      ((run step (filled 0x0600a0).reset (instructions 1)).reg regLC).toNat = 0x10000 := by
  decide +kernel

/-- An instruction that keeps to the stack. -/
def KeepsStack (d : Dsp) (e : Ev) : Prop := d.KeepsPointers e ∧ d.HasRoom e
deriving Decidable

/-- **Stack.**  In every run of instructions that keep to the stack, only elements of its arrays are
    used, and the three index registers are equal. -/
theorem stack_in_bounds (d : Dsp) (hd : d.stackFault = false) (es : List Ev)
    (hes : Along step KeepsStack d.reset es) :
    (run step d.reset es).stackFault = false ∧
      (run step d.reset es).reg regSSH = (run step d.reset es).reg regSP ∧
      (run step d.reset es).reg regSSL = (run step d.reset es).reg regSP := by
  have hinv : Inv False True (run step d.reset es) :=
    run_inv (fun d e h hk => h.step e hk.1 False.elim fun _ => hk.2) es _
      (inv_reset fun _ => hd) hes
  exact ⟨(hinv.sound.shallow trivial).2, hinv.sound.ssh, hinv.sound.ssl⟩

/-- 14 nested calls. -/
theorem nested_calls_in_bounds :
    (run step (filled 0x0d0000).reset (instructions 14)).stackFault = false :=
  (stack_in_bounds (filled 0x0d0000) rfl (instructions 14) (by decide +kernel)).1

/-- The 15th nested call uses element 15, and `movec #1,ssh` leaves `SP` behind. -/
theorem stack_out_of_bounds :
    (run step (filled 0x0d0000).reset (instructions 15)).stackFault = true ∧
      (run step (filled 0x0501bc).reset (instructions 1)).reg regSSH ≠
        (run step (filled 0x0501bc).reset (instructions 1)).reg regSP := by
  decide +kernel

end Aranym.Dsp
