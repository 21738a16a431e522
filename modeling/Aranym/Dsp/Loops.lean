/-
  The hardware loops of the DSP.

  `ctrl` reads the state of the loops off the registers and the stack: the
  entries of the stack as a list, `LA`, `LC` (saved while an instruction is
  repeated) and `LF`.  `Nested` says that it is a nest of counted loops
  (`Lib.Loops`).  At the end of a loop the whole of `SR` comes from the stack.
-/
import Aranym.Dsp.Bounds
import Aranym.Dsp.Places
import Aranym.Lib.Loops

namespace Aranym.Dsp

open Lib List Nat Function
open BitVec hiding not_and

variable {T : ℕ → Prop} {C : Prop} {d d' : Dsp} {inst : U32}

/-! ## The stack as a list -/

/-- The entries of the stack, from its top. -/
def entries (d : Dsp) : List (U16 × U16) :=
  (List.range (d.reg regSP).toNat).map fun j =>
    (d.stack 0 (d.reg regSSH - BitVec.ofNat 32 j).toNat,
      d.stack 1 (d.reg regSSL - BitVec.ofNat 32 j).toNat)

theorem length_entries (d : Dsp) : d.entries.length = (d.reg regSP).toNat := by
  simp [entries]

theorem entries_congr (hr : ∀ r, IsPointer r → d'.reg r = d.reg r) (hs : d'.stack = d.stack) :
    d'.entries = d.entries := by
  unfold entries
  rw [hr regSP (.inl rfl), hr regSSH (.inr (.inl rfl)), hr regSSL (.inr (.inr rfl)), hs]

theorem entries_setReg {r : ℕ} (hr : ¬ IsPointer r) (v : U32) :
    (d.setReg r v).entries = d.entries :=
  entries_congr (fun r' hp => reg_setReg_of_ne _ (fun heq : r' = r => hr (heq ▸ hp)) _) rfl

theorem toNat_sub_ne (x : U32) {j : ℕ} (hj : j < 15) :
    (x - BitVec.ofNat 32 j).toNat ≠ (x + 1).toNat := by
  rw [toNat_sub, toNat_add, toNat_ofNat]
  change _ ≠ (x.toNat + 1) % 2 ^ 32
  omega

theorem entries_stackPush (h : (d.reg regSP).toNat < 15) (a b : U32) :
    (d.stackPush a b).entries = (a.setWidth 16, b.setWidth 16) :: d.entries := by
  have hfull : d.reg regSP ≠ 0x0f := by
    intro h15
    rw [h15] at h
    exact absurd h (by decide)
  have hreg := fun r => reg_stackPush hfull a b r
  have hsp : ((d.stackPush a b).reg regSP).toNat = (d.reg regSP).toNat + 1 := by
    rw [hreg, if_pos (by decide), toNat_add, mod_eq_of_lt]
    · rfl
    · change (d.reg regSP).toNat + 1 < 2 ^ 32
      omega
  unfold entries
  rw [hsp, range_succ_eq_map, map_cons, map_map, hreg regSSH, if_pos (by decide), hreg regSSL,
    if_pos (by decide), stack_stackPush hfull]
  congr 1
  · simp
  · refine map_congr_left fun j hj => ?_
    have hlt : j < 15 := by
      have := List.mem_range.1 hj
      omega
    have hshift : ∀ x : U32, x + 1 - BitVec.ofNat 32 (j + 1) = x - BitVec.ofNat 32 j := by
      intro x
      bv_omega
    simp only [Function.comp, succ_eq_add_one, hshift]
    rw [update_of_ne (by decide), update_self, update_self,
      update_of_ne (toNat_sub_ne _ hlt), update_of_ne (toNat_sub_ne _ hlt)]

theorem entries_stackDrop (h : d.reg regSP ≠ 0) : d.entries =
    (d.stack 0 (d.reg regSSH).toNat, d.stack 1 (d.reg regSSL).toNat) :: d.stackDrop.entries := by
  have hpred := Sound.toNat_pred h
  have hpos : (d.reg regSP).toNat ≠ 0 := fun h0 => h (BitVec.eq_of_toNat_eq h0)
  have hsp : (d.reg regSP).toNat = (d.stackDrop.reg regSP).toNat + 1 := by
    rw [reg_stackDrop, if_pos (by decide), hpred]
    omega
  unfold entries
  rw [hsp, range_succ_eq_map, map_cons, map_map, reg_stackDrop d regSSH, if_pos (by decide),
    reg_stackDrop d regSSL, if_pos (by decide)]
  congr 1
  · simp
  · refine map_congr_left fun j _ => ?_
    have hshift : ∀ x : U32, x - 1 - BitVec.ofNat 32 j = x - BitVec.ofNat 32 (j + 1) := by
      intro x
      bv_omega
    simp only [Function.comp, succ_eq_add_one, hshift]
    rfl

variable {es : List (U16 × U16)} {e : U16 × U16}

/-- The stack is not empty, and its top is what `dsp_stack_pop` returns. -/
theorem top_of_entries (h : d.entries = e :: es) :
    d.reg regSP ≠ 0 ∧ d.stack 0 (d.reg regSSH).toNat = e.1 ∧ d.stack 1 (d.reg regSSL).toNat = e.2 ∧
      d.stackDrop.entries = es := by
  have hne : d.reg regSP ≠ 0 := by
    intro h0
    have hlen := congrArg List.length h
    rw [length_entries, h0] at hlen
    cases hlen
  rw [entries_stackDrop hne] at h
  obtain ⟨rfl, htail⟩ := List.cons.inj h
  exact ⟨hne, rfl, rfl, htail⟩

/-! ## The state of the loops -/

/-- The stack, `LA`, the count of the innermost loop, and `LF`. -/
structure Ctrl where
  entries : List (U16 × U16)
  la : U16
  lc : U16
  lf : Bool

/-- While an instruction is repeated, the count of the loop is in `LCSAVE`. -/
def ctrl (d : Dsp) : Ctrl where
  entries := d.entries
  la := (d.reg regLA).setWidth 16
  lc := (if d.loopRep then d.reg regLCSAVE else d.reg regLC).setWidth 16
  lf := d.lf

variable {x : Ctrl}

theorem ctrl_ext (he : d.entries = x.entries) (ha : (d.reg regLA).setWidth 16 = x.la)
    (hc : (if d.loopRep then d.reg regLCSAVE else d.reg regLC).setWidth 16 = x.lc)
    (hf : d.lf = x.lf) : d.ctrl = x := by
  rw [ctrl, he, ha, hc, hf]

/-- What a pop does to the registers of the loops. -/
structure Popped (d d' : Dsp) (es : List (U16 × U16)) : Prop where
  entries : d'.entries = es
  pc : d'.pc = d.pc
  repState : d'.repState = d.repState

theorem popSr_of_entries
    (he : d.entries = e :: es) : Popped d d.popSr es ∧ d.popSr.reg regSR = e.2.setWidth 32 := by
  obtain ⟨hne, -, hsr, hdrop⟩ := top_of_entries he
  rw [popSr, stackTop_of_ne hne, hsr]
  refine ⟨⟨?_, rfl, rfl⟩, ?_⟩
  · rw [← hdrop]
    refine entries_congr (fun r hp => ?_) rfl
    rw [reg_stackDrop, reg_stackDrop, reg_setReg_of_ne]
    · rfl
    · rintro rfl
      exact absurd hp (by decide)
  · rw [reg_stackDrop, if_neg (by decide), reg_setReg_self]

theorem popLoop_of_entries
    (he : d.entries = e :: es) : Popped d d.popLoop es ∧ d.popLoop.reg regLA = e.1.setWidth 32 ∧
      d.popLoop.reg regLC = e.2.setWidth 32 ∧ d.popLoop.reg regSR = d.reg regSR := by
  obtain ⟨hne, hla, hlc, hdrop⟩ := top_of_entries he
  rw [popLoop, stackTop_of_ne hne, hla, hlc]
  refine ⟨⟨?_, rfl, rfl⟩, ?_, ?_, ?_⟩
  · rw [← hdrop]
    refine entries_congr (fun r hp => ?_) rfl
    rw [reg_stackDrop, reg_stackDrop, reg_setReg_of_ne, reg_setReg_of_ne]
    · rfl
    · rintro rfl
      exact absurd hp (by decide)
    · rintro rfl
      exact absurd hp (by decide)
  · rw [reg_stackDrop, if_neg (by decide), reg_setReg_of_ne _ (by decide), reg_setReg_self]
  · rw [reg_stackDrop, if_neg (by decide), reg_setReg_self]
  · rw [reg_stackDrop, if_neg (by decide), reg_setReg_of_ne _ (by decide),
      reg_setReg_of_ne _ (by decide)]
    rfl

theorem ctrl_unwind {p sr la lc : U16}
    (he : d.entries = (p, sr) :: (la, lc) :: es) (hr : d.loopRep = false) :
    d.popSr.popLoop.ctrl = ⟨es, la, lc, sr.getLsbD 15⟩ ∧ Popped d d.popSr.popLoop es ∧
      Fits 16 (d.popSr.popLoop.reg regLA) := by
  obtain ⟨h1, hsr⟩ := popSr_of_entries he
  obtain ⟨h2, hla, hlc, hsr'⟩ := popLoop_of_entries h1.entries
  have hrep : d.popSr.popLoop.loopRep = false :=
    (congrArg Prod.fst (h2.repState.trans h1.repState)).trans hr
  refine ⟨ctrl_ext h2.entries ?_ ?_ ?_,
    ⟨h2.entries, h2.pc.trans h1.pc, h2.repState.trans h1.repState⟩, ?_⟩
  · rw [hla]; simp
  · rw [hrep, if_neg Bool.false_ne_true, hlc]; simp
  · rw [lf, hsr', hsr]; simp
  · rw [hla]; exact fits_setWidth (fits_self le_rfl)

/-! ## The end of a pass -/

theorem atLoopEnd_iff (hla : Fits 16 (d.reg regLA)) :
    d.atLoopEnd ↔ d.ctrl.lf = true ∧ d.pc.toNat = d.ctrl.la.toNat + 1 := by
  have hpc : d.pc.setWidth 32 = d.reg regLA + 1 ↔
      d.pc.toNat = ((d.reg regLA).setWidth 16).toNat + 1 := by
    have hlt : (d.reg regLA).toNat < 2 ^ 16 := hla
    rw [← toNat_inj, toNat_add, toNat_setWidth, toNat_setWidth, mod_eq_of_lt hlt]
    change _ = ((d.reg regLA).toNat + 1) % 2 ^ 32 ↔ _
    omega
  exact and_congr_right fun _ => hpc

/-- The passes that a count stands for. -/
def passes (lc : U16) : ℕ := if lc = 0 then 65536 else lc.toNat

theorem passes_eq_one_iff (lc : U16) : passes lc = 1 ↔ lc - 1 = 0 := by
  unfold passes
  split_ifs with h0
  · subst h0; decide
  · bv_omega

theorem passes_pos (lc : U16) : 0 < passes lc := by
  unfold passes
  split_ifs with h0
  · decide
  · exact Nat.pos_of_ne_zero fun h => h0 (BitVec.eq_of_toNat_eq h)

theorem passes_pred {lc : U16} (h : lc - 1 ≠ 0) : passes (lc - 1) = passes lc - 1 := by
  rw [passes, if_neg h, passes]
  split_ifs with h0
  · subst h0; decide
  · bv_omega

theorem setWidth_pred (x : U32) : ((x - 1) &&& 0xffff).setWidth 16 = x.setWidth 16 - 1 := by
  rw [setWidth_and_low _ rfl]
  bv_omega

theorem pred_eq_zero_iff (x : U32) : (x - 1) &&& 0xffff = 0 ↔ x.setWidth 16 - 1 = 0 := by
  rw [← setWidth_pred, ← toNat_inj, ← toNat_inj, toNat_setWidth, toNat_and_low (n := 16) _ rfl]
  change _ = 0 ↔ _ = 0
  omega

theorem updateLoop_away (h : ¬ d.atLoopEnd) : d.updateLoop = d := if_neg h

/-- A pass less. -/
abbrev countDown (d : Dsp) : Dsp := d.setReg regLC ((d.reg regLC - 1) &&& 0xffff)

section EndOfPass

variable {p sr : U16} {es : List (U16 × U16)}

theorem ctrl_setLc (hr : d.loopRep = false) :
    d.countDown.ctrl = { d.ctrl with lc := d.ctrl.lc - 1 } := by
  refine ctrl_ext (entries_setReg (by decide) _) ?_ ?_ ?_
  · rw [reg_setReg_of_ne _ (by decide)]; rfl
  · have hrep : d.countDown.loopRep = false := hr
    rw [hrep, if_neg Bool.false_ne_true, reg_setReg_self, setWidth_pred, ctrl, hr,
      if_neg Bool.false_ne_true]
  · rw [lf, reg_setReg_of_ne _ (by decide)]; rfl

theorem ctrl_again (h : d.atLoopEnd) (he : d.entries = (p, sr) :: es) (hr : d.loopRep = false)
    (hlc : d.ctrl.lc - 1 ≠ 0) :
    d.updateLoop.ctrl = { d.ctrl with lc := d.ctrl.lc - 1 } ∧ d.updateLoop.pc = p ∧
      d.updateLoop.reg regLA = d.reg regLA ∧ d.updateLoop.repState = d.repState := by
  have hne : d.countDown.reg regLC ≠ 0 := by
    rw [reg_setReg_self]
    intro h0
    rw [pred_eq_zero_iff] at h0
    rw [ctrl, hr] at hlc
    exact hlc h0
  obtain ⟨-, hp, -, -⟩ := top_of_entries he
  unfold updateLoop
  rw [if_pos h, if_neg hne]
  refine ⟨ctrl_setLc hr, ?_, reg_setReg_of_ne _ (by decide) _, rfl⟩
  exact hp

theorem ctrl_leave {la lc : U16} (h : d.atLoopEnd) (he : d.entries = (p, sr) :: (la, lc) :: es)
    (hr : d.loopRep = false) (hlc : d.ctrl.lc - 1 = 0) :
    d.updateLoop.ctrl = ⟨es, la, lc, sr.getLsbD 15⟩ ∧ Popped d d.updateLoop es ∧
      Fits 16 (d.updateLoop.reg regLA) := by
  have heq : d.countDown.reg regLC = 0 := by
    rw [reg_setReg_self, pred_eq_zero_iff]
    rw [ctrl, hr] at hlc
    exact hlc
  have he' : d.countDown.entries = (p, sr) :: (la, lc) :: es := by
    rw [← he]
    exact congrArg Ctrl.entries (ctrl_setLc hr)
  unfold updateLoop
  rw [if_pos h, if_pos heq]
  obtain ⟨hc, hp, hla⟩ := ctrl_unwind he' hr
  exact ⟨hc, ⟨hp.entries, hp.pc, hp.repState⟩, hla⟩

end EndOfPass

/-! ## Nests -/

/-- The state of the loops of a nest that started in `base`. -/
inductive Nested (base : Ctrl) : List Loop → Ctrl → Prop
  | nil : Nested base [] base
  | cons {ls : List Loop} {y : Ctrl} {start sr la lc : U16} : Nested base ls y →
      sr.getLsbD 15 = y.lf →
      Nested base (⟨start.toNat, la.toNat, passes lc⟩ :: ls)
        ⟨(start, sr) :: (y.la, y.lc) :: y.entries, la, lc, true⟩

variable {base : Ctrl} {ls : List Loop}

theorem Nested.length (h : Nested base ls x) :
    x.entries.length = base.entries.length + 2 * ls.length := by
  induction h with
  | nil => simp
  | cons _ _ ih =>
    simp only [length_cons, ih]
    omega

theorem Nested.innermost {l : Loop} (h : Nested base (l :: ls) x) :
    x.lf = true ∧ l.last = x.la.toNat ∧ l.left = passes x.lc ∧ ∃ y start sr, Nested base ls y ∧
      x.entries = (start, sr) :: (y.la, y.lc) :: y.entries ∧ l.first = start.toNat ∧
      sr.getLsbD 15 = y.lf := by
  cases h with
  | cons hy hsr => exact ⟨rfl, rfl, rfl, _, _, _, hy, rfl, rfl, hsr⟩

/-- The processor is in a nest. -/
structure Follows (base : Ctrl) (d : Dsp) (a : Nest) : Prop where
  nested : Nested base a.loops d.ctrl
  pc : d.pc.toNat = a.pc
  la : a.loops ≠ [] → Fits 16 (d.reg regLA)
  started : d.RepStarted
  idle : a.loops = [] → d.loopRep = false

namespace Follows

variable {base : Ctrl} {l : Loop} {ls : List Loop} {a : Nest} {pc : ℕ}

theorem sp (h : Follows base d a) :
    (d.reg regSP).toNat = base.entries.length + 2 * a.loops.length := by
  rw [← length_entries]
  exact h.nested.length

theorem atLoopEnd_iff (h : Follows base d ⟨pc, l :: ls⟩) : d.atLoopEnd ↔ pc = l.last + 1 := by
  obtain ⟨hlf, hlast, -⟩ := h.nested.innermost
  rw [Dsp.atLoopEnd_iff (h.la (cons_ne_nil _ _)), hlf, hlast, h.pc]
  simp

theorem keep (h : Follows base d ⟨pc, l :: ls⟩) (hc : d'.ctrl = d.ctrl)
    (hla : d'.reg regLA = d.reg regLA)
    (hs : d'.RepStarted) : Follows base d' ⟨d'.pc.toNat, l :: ls⟩ := by
  refine ⟨?_, rfl, fun _ => ?_, hs, nofun⟩
  · rw [hc]; exact h.nested
  · rw [hla]; exact h.la (cons_ne_nil _ _)

/-- In the body `dsp_postexecute_update_pc` does nothing about the loop. -/
theorem updateLoop_inside (h : Follows base d ⟨pc, l :: ls⟩) (hl : pc ≤ l.last) :
    Follows base d.updateLoop ⟨pc, l :: ls⟩ := by
  rw [updateLoop_away]
  · exact h
  · rw [h.atLoopEnd_iff]
    omega

theorem updateLoop_finish (h : Follows base d ⟨l.last + 1, l :: ls⟩) (hr : d.loopRep = false)
    (pc : ℕ) : ∃ a', Step ⟨pc, l :: ls⟩ ls.isEmpty a' ∧ Follows base d.updateLoop a' := by
  have hend : d.atLoopEnd := h.atLoopEnd_iff.2 rfl
  obtain ⟨hlf, hlast, hleft, y, start, sr, hy, he, hfirst, hsr⟩ := h.nested.innermost
  by_cases hlc : d.ctrl.lc - 1 = 0
  · obtain ⟨hctrl, hpop, hla⟩ := ctrl_leave hend he hr hlc
    have hrep : d.updateLoop.loopRep = false := (congrArg Prod.fst hpop.repState).trans hr
    refine ⟨⟨l.last + 1, ls⟩, .leave (hleft.trans ((passes_eq_one_iff _).2 hlc)), ?_⟩
    refine ⟨?_, ?_, fun _ => hla, fun hl => ?_, fun _ => hrep⟩
    · rw [hctrl, hsr]; exact hy
    · rw [hpop.pc]; exact h.pc
    · rw [hrep] at hl; cases hl
  · obtain ⟨hctrl, hpc, hla, hstate⟩ := ctrl_again hend he hr hlc
    have hrep : d.updateLoop.loopRep = false := (congrArg Prod.fst hstate).trans hr
    have hone : l.left ≠ 1 := fun h1 => hlc ((passes_eq_one_iff _).1 (hleft.symm.trans h1))
    have hpos : 0 < l.left := hleft ▸ passes_pos _
    refine ⟨_, .again (by omega), ?_⟩
    refine ⟨?_, ?_, fun _ => ?_, fun hl => ?_, fun _ => hrep⟩
    · rw [hctrl, hleft, ← passes_pred hlc, hlast, hfirst]
      have hnest : Nested base (⟨start.toNat, d.ctrl.la.toNat, passes (d.ctrl.lc - 1)⟩ :: ls)
          ⟨(start, sr) :: (y.la, y.lc) :: y.entries, d.ctrl.la, d.ctrl.lc - 1, true⟩ := .cons hy hsr
      rw [← he, ← hlf] at hnest
      exact hnest
    · rw [hpc, hfirst]
    · rw [hla]; exact h.la (cons_ne_nil _ _)
    · rw [hrep] at hl; cases hl

end Follows

/-! ## Instructions of a body -/

/-- The first address of the body of the innermost loop. -/
def loopStart (d : Dsp) : ℕ := (d.stack 0 (d.reg regSSH).toNat).toNat

/-- The last address of the body of the innermost loop. -/
def loopEnd (d : Dsp) : ℕ := (d.reg regLA).toNat

theorem Follows.bounds {l : Loop} {pc : ℕ} (h : Follows base d ⟨pc, l :: ls⟩) :
    l.first = d.loopStart ∧ l.last = d.loopEnd := by
  obtain ⟨-, hlast, -, y, start, sr, -, he, hfirst, -⟩ := h.nested.innermost
  obtain ⟨-, hp, -, -⟩ := top_of_entries he
  refine ⟨?_, ?_⟩
  · rw [hfirst, loopStart, hp]
  · rw [hlast, loopEnd]
    exact (toNat_setWidth _ _).trans (mod_eq_of_lt (h.la (cons_ne_nil _ _)))

/-- The state before the end of the loop is tested. -/
def beforeLoop (d : Dsp) : Dsp := d.exec.updateRep.advance

theorem postexecute_eq (d : Dsp) : d.exec.postexecuteUpdatePc = d.beforeLoop.updateLoop := rfl

/-- What keeps the state of the loops. -/
structure KeepsLoops (d d' : Dsp) : Prop where
  ctrl : d'.ctrl = d.ctrl
  la : d'.reg regLA = d.reg regLA
  sp : d'.reg regSP = d.reg regSP

theorem KeepsLoops.of_keeps (hs : d'.stack = d.stack)
    (hr : ∀ r, IsPointer r ∨ r = regLA → d'.reg r = d.reg r)
    (hlc : d'.ctrl.lc = d.ctrl.lc) (hlf : d'.lf = d.lf) : KeepsLoops d d' :=
  ⟨ctrl_ext (entries_congr (fun r hp => hr r (.inl hp)) hs)
    (congrArg _ (hr regLA (.inr rfl))) hlc hlf, hr _ (.inr rfl), hr _ (.inl (.inl rfl))⟩

theorem KeepsLoops.trans {d'' : Dsp} (h : KeepsLoops d d') (h' : KeepsLoops d' d'') :
    KeepsLoops d d'' :=
  ⟨h'.ctrl.trans h.ctrl, h'.la.trans h.la, h'.sp.trans h.sp⟩

/-- The registers that an instruction in a body must not write. -/
def LoopRegister (r : ℕ) : Prop := IsPointer r ∨ r = regLA ∨ r = regLC ∨ r = regSR
deriving Decidable

theorem keepsLoops_effect (h : Effect T C d d') (hT : ∀ r, LoopRegister r → ¬ T r)
    (hsave : d.loopRep = true → ¬ T regLCSAVE) : KeepsLoops d d' := by
  have hrep : d'.loopRep = d.loopRep := congrArg (·.2.1) h.background
  have hlc := h.keep regLC (.inr (by decide)) (hT _ (by decide))
  refine .of_keeps (congrArg Prod.fst h.background) (fun r hp => ?_) ?_ (h.lf (hT _ (by decide)))
  · rcases hp with (rfl | rfl | rfl) | rfl <;> exact h.keep _ (.inr (by decide)) (hT _ (by decide))
  · rw [ctrl, hrep, hlc]
    cases hl : d.loopRep with
    | true => rw [h.keep regLCSAVE (.inl rfl) (hsave hl), ctrl, hl]
    | false => rw [ctrl, hl]; rfl

/-- While an instruction is repeated, `LC` is not the count of the loop. -/
theorem keepsLoops_setLc (hl : d.loopRep) (v : U32) : KeepsLoops d (d.setReg regLC v) := by
  refine .of_keeps rfl (fun r hp => ?_) ?_ ?_
  · rcases hp with (rfl | rfl | rfl) | rfl <;> exact reg_setReg_of_ne _ (by decide) _
  · have hrep : (d.setReg regLC v).loopRep = true := hl
    rw [ctrl, hrep, ctrl, hl, reg_setReg_of_ne _ (by decide)]
    rfl
  · rw [lf, reg_setReg_of_ne _ (by decide)]; rfl

theorem keepsLoops_restore (hl : d.loopRep) :
    KeepsLoops d { d.setReg regLC (d.reg regLCSAVE) with loopRep := false } := by
  obtain ⟨hc, hla, hsp⟩ := keepsLoops_setLc hl (d.reg regLCSAVE)
  refine ⟨ctrl_ext (congrArg Ctrl.entries hc) (congrArg Ctrl.la hc) ?_ (congrArg Ctrl.lf hc), hla,
    hsp⟩
  rw [ctrl, hl]
  exact congrArg (BitVec.setWidth 16) (reg_setReg_self d regLC _)

/-- A repeated instruction is current again, or it is the last repetition, or nothing is
    repeated. -/
theorem keepsLoops_updateRep (hs : d.RepStarted) : KeepsLoops d d.updateRep.advance ∧
    (d.updateRep.advance.loopRep = true ∧ d.updateRep.advance.pc = d.pc ∨
      d.updateRep.advance.loopRep = false ∧ d.updateRep.advance.pc = d.pc + d.curInstLen) := by
  unfold updateRep
  dsimp only
  split_ifs with hl hpc h0 hne
  · exact absurd hpc (by simp [hs hl])
  · exact absurd hpc (by simp [hs hl])
  · obtain ⟨hc, hla, hsp⟩ := keepsLoops_setLc hl ((d.reg regLC - 1) &&& 0xffff)
    exact ⟨⟨hc, hla, hsp⟩, .inl ⟨hl, BitVec.add_zero _⟩⟩
  · have hdec := keepsLoops_setLc hl ((d.reg regLC - 1) &&& 0xffff)
    obtain ⟨hc, hla, hsp⟩ := hdec.trans (keepsLoops_restore hl)
    exact ⟨⟨hc, hla, hsp⟩, .inr ⟨rfl, rfl⟩⟩
  · exact ⟨⟨rfl, rfl, rfl⟩, .inr ⟨Bool.eq_false_of_not_eq_true hl, rfl⟩⟩

theorem keepsLoops_rep (hl : d.loopRep = false) (inst : U32) : KeepsLoops d (d.rep inst) := by
  have he : Effect (· = regLC) False (d.setReg regLCSAVE (d.reg regLC))
      ((d.setReg regLCSAVE (d.reg regLC)).opcodesRep inst) :=
    (Effect.refl _).opcodesRep rfl False.elim False.elim
  have hreg : ∀ r, Control r → r ≠ regLC → r ≠ regLCSAVE → (d.rep inst).reg r = d.reg r :=
    fun r hc hlc hsave =>
    (he.keep r hc hlc).trans (reg_setReg_of_ne _ hsave _)
  refine .of_keeps (congrArg Prod.fst he.background) (fun r hp => ?_) ?_ ?_
  · rcases hp with (rfl | rfl | rfl) | rfl <;> exact hreg _ (.inr (by decide))
      (by decide) (by decide)
  · have hsave : (d.rep inst).reg regLCSAVE = d.reg regLC :=
      (he.keep regLCSAVE (.inl rfl) (by decide)).trans (reg_setReg_self _ _ _)
    have hrep : (d.rep inst).loopRep = true := rfl
    rw [ctrl, hrep, if_pos rfl, hsave, ctrl, hl]
    rfl
  · have hlf : (d.rep inst).lf = (d.setReg regLCSAVE (d.reg regLC)).lf := he.lf (by decide)
    rw [hlf, lf, reg_setReg_of_ne _ (by decide)]
    rfl

theorem keepsLoops_onRep (hl : d.loopRep) (hpc : d.pcOnRep) :
    KeepsLoops d d.updateRep.advance ∧ d.updateRep.advance.pc = d.pc + d.curInstLen := by
  unfold updateRep
  split_ifs
  · obtain ⟨hc, hla, hsp⟩ := keepsLoops_setLc hl 0x010000
    exact ⟨⟨hc, hla, hsp⟩, rfl⟩
  · exact ⟨⟨rfl, rfl, rfl⟩, rfl⟩

/-! ## DO -/

/-- The 16-bit count of `do`, in the state in which its loop has been entered. -/
def doCount (d : Dsp) (inst : U32) : U16 :=
  let space := spaceOf (field inst 6 1)
  let numreg := field inst 8 6
  let value := match loopForm inst with
    | 0 => (d.readMemory space numreg).1
    | 2 => ((d.calcEa numreg).2.2.readMemory space (d.calcEa numreg).1).1
    | 6 => if isAccu numreg then (d.pmReadAccu24 numreg).1 else d.reg numreg
    | _ => immediate12 inst
  value.setWidth 16

/-- The operands of `do`: `x:aa`, `x:ea`, a register or `#xx`.  The second word is the end of the
    loop, so there is no absolute address. -/
def DoForm (inst : U32) : Prop :=
  loopForm inst ≠ 4 ∧ (loopForm inst = 2 → field inst 8 6 / 8 % 8 ≠ 6)
deriving Decidable

theorem lc_opcodesDo (hf : loopForm inst ≠ 4) :
    ((d.opcodesDo inst).reg regLC).setWidth 16 = d.doCount inst := by
  unfold opcodesDo doCount
  generalize loopForm inst = form at hf
  split
  · exact (congrArg (BitVec.setWidth 16) (reg_setReg_self _ _ _)).trans (setWidth_and_low _ rfl)
  · exact (congrArg (BitVec.setWidth 16) (reg_setReg_self _ _ _)).trans (setWidth_and_low _ rfl)
  · exact absurd rfl hf
  · exact (congrArg (BitVec.setWidth 16) (reg_loopReg d inst)).trans (setWidth_and_low _ rfl)
  · split
    all_goals first
      | contradiction
      | rw [doImm, setLc, reg_setReg_self]

theorem place_opcodesDo (hf : DoForm inst) : (d.opcodesDo inst).place = d.place := by
  unfold opcodesDo
  split
  · rfl
  · exact place_calcEa (hf.2 ‹_›)
  · exact absurd ‹_› hf.1
  · unfold doReg loopReg
    dsimp only
    split_ifs
    · exact place_limit _ _
    · rfl
  · rfl

/-- The end of the loop that the `DO` at `pc` starts. -/
def doEnd (d : Dsp) : U32 := d.readMemoryP (d.pc + 1) &&& 0xffff

/-- The count of the loop that the `DO` at `pc` starts. -/
def loopCount (d : Dsp) : U16 := d.fetched.doEnter.doCount d.curInst

/-- A `DO` that is not repeated, with a body that is not empty, and with room for its two
    entries. -/
structure DoAt (d : Dsp) : Prop where
  dispatch : dispatch d.curInst = .single .do
  form : DoForm d.curInst
  notRepeated : d.loopRep = false
  room : (d.reg regSP).toNat + 2 ≤ 14
  body : d.pc.toNat + 2 ≤ d.doEnd.toNat

theorem place_stackPush (d : Dsp) (a b : U32) : (d.stackPush a b).pc = d.pc ∧
    (d.stackPush a b).curInstLen = d.curInstLen ∧
    ∀ i, (d.stackPush a b).readMemoryP i = d.readMemoryP i := by
  unfold stackPush
  split_ifs <;> exact ⟨rfl, rfl, fun _ => rfl⟩

/-- The state of the processor in which the count is loaded. -/
structure Entered (d d' : Dsp) : Prop where
  entries : d'.entries = (d.pc + 2, (d.reg regSR).setWidth 16) ::
    ((d.reg regLA).setWidth 16, (d.reg regLC).setWidth 16) :: d.entries
  la : d'.reg regLA = d.doEnd
  lf : d'.lf = true
  pc : d'.pc = d.pc
  len : d'.curInstLen = 2
  repState : d'.repState = d.repState

theorem entered_doEnter (h : (d.reg regSP).toNat + 2 ≤ 14) (hlen : d.curInstLen = 1) :
    Entered d d.doEnter := by
  have hroom : (d.reg regSP).toNat < 15 := by omega
  obtain ⟨hpc1, hlen1, hmem1⟩ := place_stackPush d (d.reg regLA) (d.reg regLC)
  have he1 := entries_stackPush hroom (d.reg regLA) (d.reg regLC)
  have hsr1 : (d.stackPush (d.reg regLA) (d.reg regLC)).reg regSR = d.reg regSR :=
    reg_stackPush_of_not (by decide) _ _
  have hrep1 := repState_stackPush d (d.reg regLA) (d.reg regLC)
  unfold doEnter
  dsimp only
  generalize d.stackPush (d.reg regLA) (d.reg regLC) = d1 at hpc1 hlen1 hmem1 he1 hsr1 hrep1
  -- the address of the body is pushed when the end of the loop is in `LA`
  generalize hd2 : d1.setReg regLA (d1.readMemoryP (d1.pc + 1) &&& 0xffff) = d2
  have he2 : d2.entries = _ := hd2 ▸ (entries_setReg (by decide) _).trans he1
  have hla2 : d2.reg regLA = d.doEnd := by
    rw [← hd2, reg_setReg_self, hmem1, hpc1]
    rfl
  have hsr2 : d2.reg regSR = d.reg regSR := by
    rw [← hd2, reg_setReg_of_ne _ (by decide), hsr1]
  have hpc2 : d2.pc = d.pc := hd2 ▸ hpc1
  have hlen2 : d2.curInstLen = 1 := hd2 ▸ hlen1.trans hlen
  have hrep2 : d2.repState = d.repState := hd2 ▸ hrep1
  have hsp2 : (d2.reg regSP).toNat < 15 := by
    rw [← length_entries, he2, length_cons, length_entries]
    omega
  have he3 := entries_stackPush (d := { d2 with curInstLen := d2.curInstLen + 1 }) hsp2
    ((d2.pc.setWidth 32 + (d2.curInstLen + 1 : ℕ))) (d2.reg regSR)
  obtain ⟨hpc3, hlen3, -⟩ := place_stackPush { d2 with curInstLen := d2.curInstLen + 1 }
    ((d2.pc.setWidth 32 + (d2.curInstLen + 1 : ℕ))) (d2.reg regSR)
  refine ⟨?_, ?_, ?_, hpc3.trans hpc2, ?_, ?_⟩
  · rw [entries_setReg (by decide)]
    have hstart : (d2.pc.setWidth 32 + ((d2.curInstLen + 1 : ℕ) : U32)).setWidth 16 = d.pc + 2 := by
      rw [hpc2, hlen2, setWidth_add _ _ (by decide)]
      simp
    refine he3.trans ?_
    rw [hstart, hsr2]
    exact congrArg _ he2
  · rw [reg_setReg_of_ne _ (by decide), pushPc, reg_stackPush_of_not (by decide)]
    exact hla2
  · rw [lf, reg_setReg_self]
    simp
  · exact hlen3.trans (congrArg (· + 1) hlen2)
  · exact (repState_stackPush _ _ _).trans hrep2

theorem exec_do (h : DoAt d) : Entered d d.exec ∧ (d.exec.reg regLC).setWidth 16 = d.loopCount := by
  have henter : Entered d d.fetched.doEnter := by
    obtain ⟨he, hla, hlf, hpc, hlen, hrep⟩ := entered_doEnter (d := d.fetched) h.room rfl
    exact ⟨he, hla, hlf, hpc, hlen, hrep⟩
  have heffect : Effect (· = regLC) False d.fetched.doEnter
    (d.fetched.doEnter.opcodesDo d.curInst) :=
    (Effect.refl _).opcodesDo d.curInst rfl False.elim
  obtain ⟨hpc, hlen⟩ := Prod.mk.inj (place_opcodesDo (d := d.fetched.doEnter) h.form)
  have hptr : ∀ r, IsPointer r → d.exec.reg r = d.fetched.doEnter.reg r := by
    rw [exec_single h.dispatch]
    rintro r (rfl | rfl | rfl) <;> exact heffect.keep _ (.inr (by decide)) (by decide)
  rw [exec_single h.dispatch] at hptr ⊢
  refine ⟨⟨?_, ?_, ?_, hpc.trans henter.pc, hlen.trans henter.len, heffect.repState.trans
    henter.repState⟩, ?_⟩
  · exact (entries_congr hptr (congrArg Prod.fst heffect.background)).trans henter.entries
  · exact (heffect.keep _ (.inr (by decide)) (by decide)).trans henter.la
  · exact (heffect.lf (by decide)).trans henter.lf
  · exact lc_opcodesDo h.form.1

/-- **`DO`** enters a loop. -/
theorem follows_do (h : DoAt d) (hn : Nested base ls d.ctrl) :
    Follows base d.exec.postexecuteUpdatePc
      ⟨d.pc.toNat + 2, ⟨d.pc.toNat + 2, d.doEnd.toNat, passes d.loopCount⟩ :: ls⟩ ∧
      (d.beforeLoop.reg regSP).toNat = base.entries.length + 2 * (ls.length + 1) := by
  obtain ⟨hin, hcount⟩ := exec_do h
  have hrep : d.exec.loopRep = false := (congrArg Prod.fst hin.repState).trans h.notRepeated
  have hmid : d.beforeLoop = d.exec.advance := by
    rw [beforeLoop, updateRep, if_neg (by simp [hrep])]
  have hend : Fits 16 d.doEnd := fits_and_right (by decide)
  have hend16 : (d.doEnd.setWidth 16).toNat = d.doEnd.toNat :=
    (toNat_setWidth _ _).trans (mod_eq_of_lt hend)
  have hbody := h.body
  have hpc2 : (d.pc + 2).toNat = d.pc.toNat + 2 := by
    rw [toNat_add, mod_eq_of_lt]
    · rfl
    · have : d.doEnd.toNat < 2 ^ 16 := hend
      change d.pc.toNat + 2 < 2 ^ 16
      omega
  have hctrl : d.beforeLoop.ctrl =
    ⟨(d.pc + 2, (d.reg regSR).setWidth 16) :: (d.ctrl.la, d.ctrl.lc) :: d.ctrl.entries,
      d.doEnd.setWidth 16, d.loopCount, true⟩ := by
    rw [hmid]
    refine ctrl_ext ?_ (congrArg _ hin.la) ?_ hin.lf
    · refine hin.entries.trans ?_
      simp [ctrl, h.notRepeated]
    · have hrep' : d.exec.advance.loopRep = false := hrep
      rw [hrep']
      exact hcount
  have hnest : Nested base (⟨d.pc.toNat + 2, d.doEnd.toNat, passes d.loopCount⟩ :: ls)
      d.beforeLoop.ctrl := by
    rw [hctrl, ← hpc2, ← hend16]
    refine .cons hn ?_
    simp [ctrl, lf]
  have hfollows : Follows base d.beforeLoop
      ⟨d.pc.toNat + 2, ⟨d.pc.toNat + 2, d.doEnd.toNat, passes d.loopCount⟩ :: ls⟩ := by
    refine ⟨hnest, ?_, fun _ => ?_, fun hl => ?_, fun hnil => absurd hnil (cons_ne_nil _ _)⟩
    · rw [hmid, ← hpc2]
      change (d.exec.pc + (d.exec.curInstLen : U16)).toNat = _
      rw [hin.pc, hin.len]
      rfl
    · rw [hmid]
      exact (congrArg (Fits 16) hin.la).mpr hend
    · rw [hmid] at hl
      exact absurd (hrep.symm.trans hl) Bool.false_ne_true
  exact ⟨hfollows.updateLoop_inside h.body, hfollows.sp⟩

/-! ## Bodies -/

theorem toNat_add_nat {x : U16} {n : ℕ} (h : x.toNat + n < 2 ^ 16) :
    (x + (n : U16)).toNat = x.toNat + n := by
  have hn : (n : U16).toNat = n := (toNat_ofNat _ _).trans (mod_eq_of_lt (by omega))
  rw [toNat_add, hn, mod_eq_of_lt h]

/-- The instruction ends at `last` at most, and a jump has its target in the body of the innermost
    loop. -/
structure Stays (d : Dsp) (last : ℕ) : Prop where
  first : d.loopStart ≤ d.exec.pc.toNat
  inBody : d.exec.pc.toNat ≤ d.loopEnd
  next : d.exec.pc.toNat + d.exec.curInstLen ≤ last

/-- The calls that depend on a condition. -/
def Conditional (k : Handler) : Prop := k = .jscc ∨ k = .jsclr ∨ k = .jsset

/-- A call that is not taken pushes nothing, and only goes on to the next instruction. -/
theorem effect_notTaken {k : Handler} (hk : Conditional k) (h0 : d.pushes inst k = 0) :
    Effect (fun _ => False) False d (d.call inst k) := by
  have hbit : ∀ set, (d.bitOperand inst).1.getLsbD (field inst 0 5) ≠ set →
      Effect (fun _ => False) False d (bitJump set true d inst) := by
    intro set hno
    rw [bitJump]
    dsimp only
    rw [if_neg hno]
    exact ((Effect.refl _).bitOperand inst False.elim).congr (fun _ => rfl) rfl
  rcases hk with rfl | rfl | rfl
  · simp only [call, jscc]
    split_ifs with hcc
    · rw [pushes, if_pos hcc] at h0
      cases h0
    · exact (Effect.refl _).jumpTarget inst 0x0b False.elim
  · refine hbit false fun heq => ?_
    rw [pushes, if_pos heq] at h0
    cases h0
  · refine hbit true fun heq => ?_
    rw [pushes, if_pos heq] at h0
    cases h0

/-- The instructions of a body. -/
inductive BodyInst (d : Dsp) : Prop
  /-- with parallel moves -/
  | parallel (a : AluHandler) : dispatch d.curInst = .parallel a →
      d.Stays (d.loopEnd + 1) → BodyInst d
  /-- neither a call, a return nor a loop, with no register of the loops as its destination -/
  | plain (k : Handler) : dispatch d.curInst = .single k → k.isControl = false →
      (∀ r ∈ k.targets d.curInst, ¬ LoopRegister r) →
      (d.loopRep = true → regLCSAVE ∉ k.targets d.curInst) → d.Stays (d.loopEnd + 1) → BodyInst d
  /-- a conditional call that is not taken -/
  | notTaken (k : Handler) : dispatch d.curInst = .single k → Conditional k →
      d.fetched.pushes d.curInst k = 0 → d.Stays (d.loopEnd + 1) → BodyInst d
  /-- a `REP`, not repeated, that is not the last instruction -/
  | rep : dispatch d.curInst = .single .rep → d.loopRep = false → d.Stays d.loopEnd → BodyInst d
  /-- a nested `DO`, with another end -/
  | nested : d.DoAt → d.doEnd.toNat < d.loopEnd → BodyInst d

/-- Whether the instruction is the last one of a pass of the loop that ends at `last` and whose
    entries are the top of `depth` entries of the stack. -/
def endsPass (depth last : ℕ) (d : Dsp) : Bool :=
  d.beforeLoop.pc.toNat = last + 1 ∧ (d.beforeLoop.reg regSP).toNat = depth

/-- The instruction is a step of the nest. -/
def Steps (base : Ctrl) (last : ℕ) (d : Dsp) (a : Nest) : Prop :=
  ∃ a', Step a (endsPass (base.entries.length + 2) last d) a' ∧
    Follows base d.exec.postexecuteUpdatePc a'

section Step

variable {base : Ctrl} {l : Loop} {ls : List Loop} {pc last : ℕ} (h : Follows base d ⟨pc, l :: ls⟩)
  (hlast : ls = [] → l.last = last) (hmax : l.last < 0xffff)

include hlast

theorem endsPass_eq (hsp : (d.beforeLoop.reg regSP).toNat =
    base.entries.length + 2 * (ls.length + 1)) : endsPass (base.entries.length + 2) last d =
      (ls.isEmpty && decide (d.beforeLoop.pc.toNat = l.last + 1)) := by
  unfold endsPass
  cases ls with
  | nil =>
    rw [hlast rfl, hsp]
    simp
  | cons m ms =>
    rw [hsp]
    simp only [length_cons, isEmpty_cons, Bool.false_and, decide_eq_false_iff_not, not_and]
    omega

include h

/-- An instruction that keeps the state of the loops stays in the body, or ends a pass. -/
theorem Follows.step_of_keeps (hk : KeepsLoops d d.beforeLoop) (hs : d.beforeLoop.RepStarted)
    (hf : l.first ≤ d.beforeLoop.pc.toNat)
    (hpc : d.beforeLoop.pc.toNat ≤ l.last ∨ d.beforeLoop.pc.toNat = l.last + 1 ∧
      d.beforeLoop.loopRep = false) :
    Steps base last d ⟨pc, l :: ls⟩ := by
  have hmid := h.keep hk.ctrl hk.la hs
  rw [Steps, endsPass_eq hlast hmid.sp, postexecute_eq]
  rcases hpc with hle | ⟨heq, hrep⟩
  · refine ⟨_, ?_, hmid.updateLoop_inside hle⟩
    rw [decide_eq_false (by omega), Bool.and_false]
    exact .inside hf hle
  · rw [heq, decide_eq_true rfl, Bool.and_true]
    rw [heq] at hmid
    exact hmid.updateLoop_finish hrep pc

include hmax

theorem Follows.step_plain (hk : KeepsLoops d d.exec) (hrep : d.exec.repState = d.repState)
    (hst : d.Stays (d.loopEnd + 1)) : Steps base last d ⟨pc, l :: ls⟩ := by
  obtain ⟨hfirst, hend⟩ := h.bounds
  have hs : d.exec.RepStarted := fun hl =>
    (congrArg Prod.snd hrep).trans (h.started ((congrArg Prod.fst hrep).symm.trans hl))
  obtain ⟨hk', hcase⟩ := keepsLoops_updateRep hs
  have h1 := hst.first
  have h2 := hst.inBody
  have h3 := hst.next
  rcases hcase with ⟨-, hpc⟩ | ⟨hl, hpc⟩
  · refine h.step_of_keeps hlast (hk.trans hk') (repStarted_updateRep _) ?_ (.inl ?_)
    · rw [beforeLoop, hpc]; omega
    · rw [beforeLoop, hpc]; omega
  · have hnext : d.beforeLoop.pc.toNat = d.exec.pc.toNat + d.exec.curInstLen := by
      rw [beforeLoop, hpc]
      exact toNat_add_nat (by omega)
    refine h.step_of_keeps hlast (hk.trans hk') (repStarted_updateRep _) (by omega) ?_
    by_cases hle : d.exec.pc.toNat + d.exec.curInstLen ≤ d.loopEnd
    · exact .inl (by omega)
    · exact .inr ⟨by omega, hl⟩

/-- So does one whose effect is on none of their registers. -/
theorem Follows.step_effect {T : ℕ → Prop} (he : Effect T False d.fetched d.exec)
    (hT : ∀ r, LoopRegister r → ¬ T r) (hsave : d.loopRep = true → ¬ T regLCSAVE)
    (hst : d.Stays (d.loopEnd + 1)) : Steps base last d ⟨pc, l :: ls⟩ := by
  have hfetch : KeepsLoops d d.fetched := ⟨rfl, rfl, rfl⟩
  exact h.step_plain hlast hmax (hfetch.trans (keepsLoops_effect he hT hsave)) he.repState hst

/-- **Instructions of a body** are steps of the nest. -/
theorem Follows.step (hf : l.first ≤ pc) (hb : d.BodyInst) : Steps base last d ⟨pc, l :: ls⟩ := by
  have hfetch : KeepsLoops d d.fetched := ⟨rfl, rfl, rfl⟩
  obtain ⟨hfirst, hend⟩ := h.bounds
  cases hb with
  | parallel a hd hst =>
    have he : Effect (fun _ => False) False d.fetched d.exec := by
      rw [exec_parallel hd]
      exact (Effect.refl _).parallel d.curInst a False.elim False.elim
    exact h.step_effect hlast hmax he (fun _ _ => id) (fun _ => id) hst
  | plain k hd hc hT hsave hst =>
    have he : Effect (· ∈ k.targets d.curInst) False d.fetched d.exec := by
      rw [exec_single hd]
      exact (Effect.refl _).call hc (fun _ => id) False.elim False.elim False.elim
    exact h.step_effect hlast hmax he (fun r hr hm => hT r hm hr) hsave hst
  | notTaken k hd hk h0 hst =>
    have he : Effect (fun _ => False) False d.fetched d.exec := by
      rw [exec_single hd]
      exact effect_notTaken hk h0
    exact h.step_effect hlast hmax he (fun _ _ => id) (fun _ => id) hst
  | rep hd hl hst =>
    have hexec : d.exec = d.fetched.rep d.curInst := exec_single hd
    obtain ⟨hk, hpc⟩ := keepsLoops_onRep (d := d.exec) (by rw [hexec]; rfl) (by rw [hexec]; rfl)
    have hkeep : KeepsLoops d d.beforeLoop := by
      refine KeepsLoops.trans ?_ hk
      rw [hexec]
      exact hfetch.trans (keepsLoops_rep (d := d.fetched) hl d.curInst)
    have h1 := hst.first
    have h3 := hst.next
    have hnext : d.beforeLoop.pc.toNat = d.exec.pc.toNat + d.exec.curInstLen := by
      rw [beforeLoop, hpc]
      exact toNat_add_nat (by omega)
    exact h.step_of_keeps hlast hkeep (repStarted_updateRep _) (by omega) (.inl (by omega))
  | nested hdo hlt =>
    obtain ⟨hfollows, hsp⟩ := follows_do hdo h.nested
    have hflag : endsPass (base.entries.length + 2) last d = false := by
      unfold endsPass
      rw [hsp]
      simp
    have hpc : d.pc.toNat = pc := h.pc
    have hinner : l.first ≤ d.pc.toNat + 2 := by omega
    have houter : d.doEnd.toNat < l.last := by omega
    rw [Steps, hflag]
    have hstep : Step ⟨pc, l :: ls⟩ false ⟨d.pc.toNat + 2,
        ⟨d.pc.toNat + 2, d.doEnd.toNat, passes d.loopCount⟩ :: l :: ls⟩ :=
      .enter (m := ⟨d.pc.toNat + 2, d.doEnd.toNat, passes d.loopCount⟩) hinner hdo.body houter
        (passes_pos _)
    exact ⟨_, hstep, hfollows⟩

end Step

/-! ## Loops -/

/-- No interrupt is taken. -/
def Quiet (d : Dsp) : Prop := d.loopRep = true ∨ d.interruptState ≠ .fast ∧ d.raiseInterrupt.1 = 99
deriving Decidable

theorem executeInstruction_of_quiet (h : d.exec.postexecuteUpdatePc.Quiet) :
    d.executeInstruction = d.exec.postexecuteUpdatePc := by
  rw [executeInstruction, postexecuteInterrupts]
  rcases h with hl | ⟨hf, h99⟩
  · rw [if_pos hl]
  · dsimp only
    rw [if_neg hf, h99, (Searched.raiseInterrupt _).unchanged h99]
    simp

/-- Between two instructions the CPU can use the host port, which leaves the registers alone. -/
def Between (d d' : Dsp) : Prop := ∃ c : DspCore, c.registers = d.core.registers ∧
    d' = { d with core := c }

theorem Follows.between {a : Nest} (h : Follows base d a) (hb : Between d d') :
    Follows base d' a := by
  obtain ⟨c, hc, rfl⟩ := hb
  have hreg : ∀ r, ({ d with core := c } : Dsp).reg r = d.reg r := fun r => congrFun hc r
  have hk : KeepsLoops d { d with core := c } := by
    refine .of_keeps rfl (fun r _ => hreg r) ?_ ?_
    · simp only [ctrl, hreg]
    · rw [lf, hreg]; rfl
  refine ⟨?_, h.pc, fun hne => ?_, h.started, h.idle⟩
  · rw [hk.ctrl]; exact h.nested
  · rw [hk.la]; exact h.la hne

/-- The entries of the `DO` in `d` are on the stack. -/
def Active (d : Dsp) (s : ℕ → Dsp) (t : ℕ) : Prop :=
  ∀ u ≤ t, (d.reg regSP).toNat + 2 ≤ ((s u).reg regSP).toNat

/-- A pass of the loop of the `DO` in `d` ends. -/
def EndsPass (d d' : Dsp) : Prop := endsPass ((d.reg regSP).toNat + 2) d.doEnd.toNat d' = true
deriving Decidable

theorem Follows.restored {pc : ℕ} (h : Follows base d ⟨pc, []⟩) : d.ctrl = base := by
  have hn := h.nested
  cases hn
  rfl

/-- **Hardware loops.**  Between the instructions of the run `s` the CPU can use the host port.  If
    the instructions are those of a body as long as the entries of the `DO` are on the stack, and
    every pass of the body ends, then the body is executed as often as the count says, each time
    from its first address to its last, and after that `pc` is behind it and the registers are as
    before the `DO`. -/
theorem do_loop_counted (d : Dsp) (s : ℕ → Dsp) (hdo : d.DoAt) (hend : d.doEnd.toNat < 0xffff)
    (hquiet : d.exec.postexecuteUpdatePc.Quiet) (h0 : Between d.executeInstruction (s 0))
    (hnext : ∀ t, Between (s t).executeInstruction (s (t + 1)))
    (hbody : ∀ t, d.Active s t → (s t).BodyInst ∧ (s t).exec.postexecuteUpdatePc.Quiet)
    (hpass : ∀ t, d.Active s t → ∃ u, t ≤ u ∧ d.Active s u ∧ d.EndsPass (s u)) :
    ∃ n, Nat.count (fun t => d.EndsPass (s t)) n = passes d.loopCount ∧
      (s 0).pc.toNat = d.pc.toNat + 2 ∧
      (∀ t < n, d.pc.toNat + 2 ≤ (s t).pc.toNat ∧ (s t).pc.toNat ≤ d.doEnd.toNat) ∧
      (∀ t, t + 1 < n → d.EndsPass (s t) → (s (t + 1)).pc.toNat = d.pc.toNat + 2) ∧
      (s n).pc.toNat = d.doEnd.toNat + 1 ∧ (s n).reg regSP = d.reg regSP ∧
      ((s n).reg regLA).setWidth 16 = (d.reg regLA).setWidth 16 ∧
      ((s n).reg regLC).setWidth 16 = (d.reg regLC).setWidth 16 ∧ (s n).lf = d.lf := by
  have hlen : d.ctrl.entries.length = (d.reg regSP).toNat := length_entries d
  have hstart : Follows d.ctrl (s 0)
      ⟨d.pc.toNat + 2, [⟨d.pc.toNat + 2, d.doEnd.toNat, passes d.loopCount⟩]⟩ := by
    rw [executeInstruction_of_quiet hquiet] at h0
    exact (follows_do hdo .nil).1.between h0
  have hstep : ∀ t k a, d.Active s t → Follows d.ctrl (s t) a →
      Inside ⟨d.pc.toNat + 2, d.doEnd.toNat, passes d.loopCount⟩ k a →
      ∃ a', Step a (endsPass ((d.reg regSP).toNat + 2) d.doEnd.toNat (s t)) a' ∧
        Follows d.ctrl (s (t + 1)) a' := by
    rintro t k ⟨pc, loops⟩ hact hR hin
    obtain ⟨m, os, rfl, hf, -⟩ := hin.body
    obtain ⟨hinst, hq⟩ := hbody t hact
    have hmax := (hin.running.within hdo.body).2.2
    have houter : os = [] → m.last = d.doEnd.toNat := by
      rintro rfl
      exact hin.running.last_eq
    obtain ⟨a', hs, hfollows⟩ := hR.step houter (lt_of_le_of_lt hmax hend) hf hinst
    have hb := hnext t
    rw [executeInstruction_of_quiet hq] at hb
    rw [hlen] at hs
    exact ⟨a', hs, hfollows.between hb⟩
  have hactive : ∀ x a, Follows d.ctrl x a →
      ((d.reg regSP).toNat + 2 ≤ (x.reg regSP).toNat ↔ a.loops ≠ []) := by
    intro x a hR
    rw [hR.sp, hlen]
    cases a.loops with
    | nil => simp
    | cons m os =>
      simp only [length_cons, ne_eq, cons_ne_nil, not_false_iff, iff_true]
      omega
  obtain ⟨n, hcount, hrange, hagain, hR⟩ := exists_counted (fun x : Dsp => x.pc.toNat) hdo.body
    (passes_pos _) hstart hactive (fun x a hR => hR.pc) hstep hpass
  have hctrl := hR.restored
  have hidle := hR.idle rfl
  refine ⟨n, hcount, hstart.pc, fun t ht => (hrange t ht).2, hagain, hR.pc, ?_,
    congrArg Ctrl.la hctrl, ?_, congrArg Ctrl.lf hctrl⟩
  · refine BitVec.eq_of_toNat_eq ?_
    rw [hR.sp, hlen]
    simp
  · have hlc := congrArg Ctrl.lc hctrl
    simpa [ctrl, hidle, hdo.notRepeated] using hlc

/-- A program in the internal memory, after reset. -/
def program (ws : List U32) : Dsp :=
  Dsp.reset { (default : Dsp) with
    core := { (default : DspCore) with ramint := fun _ i => ws.getD i 0 } }

/-- The state after an instruction and `t` more. -/
def after (d : Dsp) (t : ℕ) : Dsp := executeInstruction^[t + 1] d

/-- `do #2,3` with two `nop` as its body -/
def twoNops : Dsp := program [0x060280, 0x000003, 0x000000, 0x000000]

theorem two_nops_twice : ∃ n, Nat.count (fun t => twoNops.EndsPass (twoNops.after t)) n = 2 ∧
    (twoNops.after n).pc.toNat = 4 := by
  have hall : ∀ t < 4, dispatch (twoNops.after t).curInst = .single .nop ∧
    (twoNops.after t).loopRep = false ∧
      (twoNops.after t).loopStart ≤ (twoNops.after t).exec.pc.toNat ∧
      (twoNops.after t).exec.pc.toNat ≤ (twoNops.after t).loopEnd ∧
      (twoNops.after t).exec.pc.toNat + (twoNops.after t).exec.curInstLen ≤
        (twoNops.after t).loopEnd + 1 ∧
      (twoNops.after t).exec.postexecuteUpdatePc.Quiet := by
    decide +kernel
  have hsp : ∀ t < 4, 2 ≤ ((twoNops.after t).reg regSP).toNat := by decide +kernel
  have hends : twoNops.EndsPass (twoNops.after 1) ∧ twoNops.EndsPass (twoNops.after 3) := by
    decide +kernel
  have hleft : ((twoNops.after 4).reg regSP).toNat = 0 := by decide +kernel
  have hlt : ∀ t, twoNops.Active twoNops.after t → t < 4 := by
    intro t ht
    by_contra hge
    have h4 := ht 4 (by omega)
    exact absurd h4 (by omega)
  have hactive : ∀ t < 4, twoNops.Active twoNops.after t := fun t ht u hu => hsp u (by omega)
  obtain ⟨n, hcount, -, -, -, hpc, -⟩ := do_loop_counted twoNops twoNops.after
    ⟨by decide +kernel, by decide +kernel, by decide +kernel, by decide +kernel, by decide +kernel⟩
    (by decide +kernel) (by decide +kernel) ⟨_, rfl, rfl⟩
    (fun t => ⟨_, rfl, iterate_succ_apply' _ _ _⟩)
    (fun t ht => by
      obtain ⟨hd, hrep, h1, h2, h3, hq⟩ := hall t (hlt t ht)
      exact ⟨.plain .nop hd rfl (by simp [Handler.targets]) (by simp [Handler.targets])
        ⟨h1, h2, h3⟩, hq⟩)
    (fun t ht => by
      have := hlt t ht
      by_cases h1 : t ≤ 1
      · exact ⟨1, h1, hactive 1 (by omega), hends.1⟩
      · exact ⟨3, by omega, hactive 3 (by omega), hends.2⟩)
  have hn : passes twoNops.loopCount = 2 := by decide +kernel
  have he : twoNops.doEnd.toNat = 3 := by decide +kernel
  exact ⟨n, hcount, hpc⟩

/-- `do #3,4` with `rep #2`, `rep #2` and `nop` as its body: the second `REP` overwrites the saved
    count. -/
def repeatedRep : Dsp := program [0x060380, 0x000004, 0x0602a0, 0x0602a0, 0x000000]

/-- A repeated `REP`: the body of a loop of 3 passes is executed a fourth time, and the loop goes
    on. -/
theorem repeated_rep_miscounts : repeatedRep.loopCount = 3 ∧ DoForm repeatedRep.curInst ∧
    repeatedRep.doEnd.toNat = 4 ∧
    Nat.count (fun t => repeatedRep.EndsPass (repeatedRep.after t)) 16 = 4 ∧
    (repeatedRep.after 16).pc = 2 ∧ ((repeatedRep.after 16).reg regSP).toNat = 2 := by
  decide +kernel

/-! ## The status register at the end of a loop -/

/-- The word on top of the stack that a loop exit takes `SR` from. -/
def savedSr (d : Dsp) : U16 := d.stack 1 (d.reg regSSL).toNat

/-- The current loop is at its end, and its count runs out. -/
def EndsByCount (d : Dsp) : Prop :=
  d.updateRep.advance.atLoopEnd ∧ (d.updateRep.advance.reg regLC - 1) &&& 0xffff = 0
deriving Decidable

/-- The two ends of a loop: by its count, after the last instruction of the body left the state `d`,
    and by an `ENDDO` that is executed in `d`. -/
inductive LoopExit (d : Dsp) : Dsp → Prop
  | count (h : d.EndsByCount) : LoopExit d d.postexecuteUpdatePc
  | enddo (h : dispatch d.curInst = .single .enddo) : LoopExit d d.exec

/-- `LF` is the saved one, and all other bits of `SR` are as they were. -/
def OnlyLfRestored (d d' : Dsp) : Prop :=
  (d.reg regSP ≠ 0 → d'.lf = d.savedSr.getLsbD 15) ∧
  ∀ i ≠ 15, (d'.reg regSR).getLsbD i = (d.reg regSR).getLsbD i

/-- The saved word and `SR` differ in `LF` at most. -/
def SavedAgrees (d : Dsp) : Prop := ∀ i ≠ 15, d.savedSr.getLsbD i = (d.reg regSR).getLsbD i

theorem regSR_popLoop (d : Dsp) : d.popLoop.reg regSR = d.reg regSR := by
  by_cases hsp : d.reg regSP = 0
  · rw [popLoop, stackTop_of_eq hsp]
  · rw [popLoop, stackTop_of_ne hsp]
    rfl

theorem regSR_pops (d : Dsp) :
    d.popSr.popLoop.reg regSR = if d.reg regSP = 0 then d.reg regSR else d.savedSr.setWidth 32 := by
  rw [regSR_popLoop]
  by_cases hsp : d.reg regSP = 0
  · rw [popSr, stackTop_of_eq hsp, if_pos hsp]
  · rw [popSr, stackTop_of_ne hsp, if_neg hsp]
    rfl

theorem keeps_updateRep (d : Dsp) {r : ℕ} (hr : r ≠ regLC) :
    d.updateRep.advance.reg r = d.reg r ∧ d.updateRep.advance.stack = d.stack := by
  have hset : ∀ (e : Dsp) (v : U32), (e.setReg regLC v).reg r = e.reg r :=
    fun e v => reg_setReg_of_ne e hr v
  unfold updateRep
  dsimp only
  split_ifs
  · exact ⟨hset _ _, rfl⟩
  · exact ⟨rfl, rfl⟩
  · exact ⟨hset _ _, rfl⟩
  · exact ⟨(hset _ _).trans (hset _ _), rfl⟩
  · exact ⟨rfl, rfl⟩

theorem LoopExit.regSR (h : LoopExit d d') :
    d'.reg regSR = if d.reg regSP = 0 then d.reg regSR else d.savedSr.setWidth 32 := by
  cases h with
  | count h =>
    obtain ⟨hend, hlc⟩ := h
    have hsr := (keeps_updateRep d (r := Dsp.regSR) (by decide)).1
    have hsp := (keeps_updateRep d (r := regSP) (by decide)).1
    have hssl := keeps_updateRep d (r := regSSL) (by decide)
    rw [postexecuteUpdatePc, updateLoop, if_pos hend]
    rw [if_pos (by rw [reg_setReg_self]; exact hlc), regSR_pops, reg_setReg_of_ne _ (by decide),
      reg_setReg_of_ne _ (by decide), hsp, hsr]
    have hsaved : d.updateRep.advance.countDown.savedSr = d.savedSr := by
      unfold Dsp.savedSr
      rw [reg_setReg_of_ne _ (by decide), hssl.1]
      exact congrArg (fun s : ℕ → ℕ → U16 => s 1 (d.reg regSSL).toNat) hssl.2
    rw [hsaved]
  | enddo h =>
    rw [exec_single h]
    exact regSR_pops d.fetched

/-- **Loop exits.**  Only `LF` comes from the stack if and only if there is nothing on it, or the
    word saved by the `DO` has the other bits of `SR` as the body left them. -/
theorem only_lf_restored_iff (h : LoopExit d d') :
    OnlyLfRestored d d' ↔ d.reg regSP = 0 ∨ d.SavedAgrees := by
  have hsr := h.regSR
  by_cases hsp : d.reg regSP = 0
  · rw [if_pos hsp] at hsr
    refine ⟨fun _ => .inl hsp, fun _ => ⟨fun hne => absurd hsp hne, fun i _ => by rw [hsr]⟩⟩
  · rw [if_neg hsp] at hsr
    have hbit : ∀ i, (d'.reg regSR).getLsbD i = d.savedSr.getLsbD i := by
      intro i
      rw [hsr, getLsbD_setWidth]
      by_cases hi : i < 32
      · simp [hi]
      · simp [hi, getLsbD_of_ge d.savedSr i (by omega)]
    constructor
    · rintro ⟨-, hkeep⟩
      exact .inr fun i hi => (hbit i).symm.trans (hkeep i hi)
    · rintro (h0 | hagree)
      · exact absurd h0 hsp
      · exact ⟨fun _ => hbit 15, fun i hi => (hbit i).trans (hagree i hi)⟩

/-- `do #1,3` with `nop` and `ori #1,ccr` as its body -/
def setsCarry : Dsp := program [0x060180, 0x000003, 0x000000, 0x0001f9]

theorem two_nops_only_lf :
    OnlyLfRestored (twoNops.after 3).exec (twoNops.after 3).exec.postexecuteUpdatePc :=
  (only_lf_restored_iff (.count (by decide +kernel))).2 (.inr fun i hi => by
    have hall : ∀ j < 32, j ≠ 15 → ((twoNops.after 3).exec.savedSr).getLsbD j =
        ((twoNops.after 3).exec.reg regSR).getLsbD j := by decide +kernel
    by_cases hlt : i < 32
    · exact hall i hlt hi
    · rw [getLsbD_of_ge _ i (by omega), getLsbD_of_ge _ i (by omega)])

/-- The carry that the last instruction of the body sets is lost. -/
theorem carry_lost_at_loop_end :
    LoopExit (setsCarry.after 1).exec (setsCarry.after 1).exec.postexecuteUpdatePc ∧
    ¬ OnlyLfRestored (setsCarry.after 1).exec (setsCarry.after 1).exec.postexecuteUpdatePc := by
  have hset : ((setsCarry.after 1).exec.reg regSR).getLsbD 0 = true := by decide +kernel
  have hlost : ((setsCarry.after 1).exec.postexecuteUpdatePc.reg regSR).getLsbD 0 = false := by
    decide +kernel
  refine ⟨.count (by decide +kernel), fun h => ?_⟩
  have hkeep := h.2 0 (by decide)
  rw [hlost, hset] at hkeep
  cases hkeep

end Aranym.Dsp
