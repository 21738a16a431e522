/-
  What an instruction of the DSP can change.

  `Effect T C d d'` says of a part of the execution from `d` to `d'` that the
  registers of the stack and of the loops stay as they are, except those in `T`,
  and that all registers keep within their widths if they did before and the
  condition `C` holds.
-/
import Aranym.Dsp.Execute
import Aranym.Dsp.MemoryMap

namespace Aranym.Dsp

open Lib
open DspCore (regM0 regOMR)

/-! ## Widths -/

/-- The bits of a register.  The numbers that are no register can be copied into one too: `LCSAVE`
    into `LC`, and 0 into an accumulator. -/
def width (r : ℕ) : ℕ :=
  if registersMask r ≠ 0 then registersMask r else if r = regLCSAVE then 16 else 24

/-- Every register is within its width. -/
def WithinWidths (d : Dsp) : Prop := ∀ r, Fits (width r) (d.reg r)

theorem registersMask_le_width (r : ℕ) : registersMask r ≤ width r := by
  unfold width
  split_ifs with h
  · exact le_rfl
  all_goals rw [not_not.1 h]; omega

variable {n : ℕ}

theorem width_accu (hn : n < 2) :
    width (regA2 + n) = 8 ∧ width (regA1 + n) = 24 ∧ width (regA0 + n) = 24 := by
  revert n; decide

theorem width_address (hn : n < 8) :
    width (regR0 + n) = 16 ∧ width (regN0 + n) = 16 ∧ width (regM0 + n) = 16 := by
  revert n; decide

theorem width_xy (hn : n < 4) : width (regX0 + n) = 24 := by
  revert n; decide

theorem field_lt (inst : U32) (lo n : ℕ) : field inst lo n < 2 ^ n :=
  Nat.mod_lt _ (Nat.two_pow_pos n)

theorem fits_bitmask (hn : n < 32) : Fits n (bitmask n) := by
  have : ∀ n < 32, Fits n (bitmask n) := by decide
  exact this n hn

theorem registersMask_lt (r : ℕ) : registersMask r < 32 := by
  by_cases hr : r < 64
  · revert r; decide
  · rw [registersMask, List.getD_eq_default _ _ (by simpa using hr)]
    decide

theorem fits_registersMask (v : U32) (r : ℕ) : Fits (width r) (v &&& bitmask (registersMask r)) :=
  (fits_and_right (fits_bitmask (registersMask_lt r))).mono (registersMask_le_width r)

/-! ## Effects -/

/-- The registers of the stack and of the loops. -/
def Control (r : ℕ) : Prop := r = regLCSAVE ∨ regSP ≤ r

/-- The state that instructions other than jumps, loops and calls leave alone. -/
def background (d : Dsp) : (ℕ → ℕ → U16) × Bool × Bool × DspInterrupt × Bool :=
  (d.stack, d.loopRep, d.pcOnRep, d.interruptState, d.stackFault)

/-- What an instruction keeps. -/
structure Effect (T : ℕ → Prop) (C : Prop) (d d' : Dsp) : Prop where
  keep : ∀ r, Control r → ¬ T r → d'.reg r = d.reg r
  lf : ¬ T regSR → d'.lf = d.lf
  within : C → d.WithinWidths → d'.WithinWidths
  background : d'.background = d.background

variable {T : ℕ → Prop} {C : Prop} {d₀ d d' : Dsp} {inst : U32}

theorem reg_setReg (d : Dsp) (r r' : ℕ) (v : U32) :
    (d.setReg r v).reg r' = if r' = r then v else d.reg r' := by
  unfold reg setReg
  exact Function.update_apply _ _ _ _

@[simp] theorem reg_setReg_self (d : Dsp) (r : ℕ) (v : U32) : (d.setReg r v).reg r = v := by
  rw [reg_setReg, if_pos rfl]

theorem reg_setReg_of_ne {r r' : ℕ} (d : Dsp) (h : r' ≠ r) (v : U32) :
    (d.setReg r v).reg r' = d.reg r' := by
  rw [reg_setReg, if_neg h]

namespace Effect

theorem refl (d : Dsp) : Effect T C d d := ⟨fun _ _ _ => rfl, fun _ => rfl, fun _ h => h, rfl⟩

variable (h : Effect T C d₀ d)
include h

theorem congr (hr : ∀ r, d'.reg r = d.reg r) (hb : d'.background = d.background) :
    Effect T C d₀ d' := by
  refine ⟨fun r hc ht => (hr r).trans (h.keep r hc ht), fun ht => ?_, fun hC hw r => ?_,
    hb.trans h.background⟩
  · rw [← h.lf ht, Dsp.lf, Dsp.lf, hr]
  · rw [hr]; exact h.within hC hw r

theorem setReg (r : ℕ) (v : U32) (hT : Control r → T r)
    (hlf : r = regSR → ¬ T regSR → v.getLsbD 15 = d.lf)
    (hv : C → d₀.WithinWidths → Fits (width r) v) : Effect T C d₀ (d.setReg r v) := by
  refine ⟨fun r' hc ht => ?_, fun ht => ?_, fun hC hw r' => ?_, h.background⟩
  · have hne : r' ≠ r := fun heq => ht (heq ▸ hT (heq ▸ hc))
    rw [reg_setReg_of_ne _ hne]
    exact h.keep r' hc ht
  · rw [← h.lf ht, Dsp.lf, reg_setReg]
    split_ifs with hr
    · exact hlf hr.symm ht
    · rfl
  · rw [reg_setReg]
    split_ifs with hr
    · subst hr; exact hv hC hw
    · exact h.within hC hw r'

theorem data {r : ℕ} (hr : r < 0x28) {v : U32}
    (hv : C → d₀.WithinWidths → Fits (width r) v) : Effect T C d₀ (d.setReg r v) := by
  refine h.setReg r v ?_ ?_ hv
  · rintro (hc | hc) <;> simp only [regLCSAVE, regSP] at hc <;> omega
  · intro hr'
    simp only [regSR] at hr'; omega

theorem updateSr (clear : U32) {set : U32} (hc : (0xffff - clear).getLsbD 15 = true)
    (hm : Fits 16 (0xffff - clear)) (hs : Fits 15 set) : Effect T C d₀ (d.updateSr clear set) := by
  refine h.setReg regSR _ ?_ ?_ ?_
  · rintro (hc | hc) <;> simp [regSR, regLCSAVE, regSP] at hc
  · intro _ _
    rw [BitVec.getLsbD_or, BitVec.getLsbD_and, hc, getLsbD_of_fits hs le_rfl, Dsp.lf]
    simp
  · intro _ _
    exact fits_or (fits_and_right hm) (hs.mono (by decide))

theorem limit (limited : Bool) : Effect T C d₀ (d.limit limited) := by
  unfold Dsp.limit
  split_ifs
  · refine h.setReg regSR _ ?_ ?_ ?_
    · rintro (hc | hc) <;> simp [regSR, regLCSAVE, regSP] at hc
    · intro _ _
      rw [BitVec.getLsbD_or, Dsp.lf]
      simp
    · intro hC hw
      exact fits_or (h.within hC hw regSR) (by decide)
  · exact h

end Effect

/-! ## Memory -/

namespace Effect

theorem readMemory (h : Effect T C d₀ d) (space : DspSpace) (address : U32) :
    Effect T C d₀ (d.readMemory space address).2 :=
  h.congr (fun r => congrFun
    (d.core.registers_step (.readMemory space (address.setWidth 16))) r) rfl

theorem writeMemory (h : Effect T C d₀ d) (space : DspSpace) (address value : U32) :
    Effect T C d₀ (d.writeMemory space address value) :=
  h.congr (fun r => congrFun
    (d.core.registers_step (.writeMemory space (address.setWidth 16) value)) r) rfl

end Effect

/-! ## Accumulators -/

/-- An accumulator within its 56 bits. -/
structure Limbs.Within (x : Limbs) : Prop where
  hi : Fits 8 x.hi
  mid : Fits 24 x.mid
  lo : Fits 24 x.lo

theorem within_accu (hw : d.WithinWidths) (hn : n < 2) : (d.accu n).Within := by
  obtain ⟨h2, h1, h0⟩ := width_accu hn
  exact ⟨h2 ▸ hw (regA2 + n), h1 ▸ hw (regA1 + n), h0 ▸ hw (regA0 + n)⟩

theorem fits_bitAt (v : U32) (n : ℕ) : Fits 1 (bitAt v n) := fits_and_right (by decide)

theorem fits_statusBits (overflow carry : Bool) : Fits 15 (statusBits overflow carry) :=
  fits_or (fits_ite (by decide) (by decide)) (fits_ite (by decide) (by decide))

theorem fits_signLimb (v : U32) : Fits 8 (signLimb v) := fits_ite (by decide) (by decide)

/-- The result of an operation: an accumulator, and flags. -/
structure Result (r : Limbs × U32) : Prop where
  within : r.1.Within
  flags : Fits 15 r.2

theorem Limbs.within_masked {hi mid lo : U32} :
    Limbs.Within ⟨hi &&& 0xff, mid &&& 0xffffff, lo &&& 0xffffff⟩ :=
  ⟨fits_and_right (by decide), fits_and_right (by decide), fits_and_right (by decide)⟩

theorem result_asl56 (x : Limbs) : Result (asl56 x) :=
  ⟨Limbs.within_masked, fits_statusBits _ _⟩

theorem result_asr56 (x : Limbs) : Result (asr56 x) := by
  have hbit : ∀ v : U32, Fits 24 ((v &&& 1) <<< 23) := fun v =>
    fits_shiftLeft (fits_and_right (by decide : Fits 1 (1 : U32)))
  refine ⟨⟨?_, ?_, ?_⟩, fits_statusBits _ _⟩
  · have hsign : ∀ v : U32, Fits 8 ((v &&& 0x40) <<< 1) := fun v =>
      fits_shiftLeft (fits_and_right (by decide : Fits 7 (0x40 : U32)))
    exact fits_or (fits_and_right (by decide)) (hsign _)
  all_goals exact fits_or (fits_and_right (by decide)) (hbit _)

theorem result_add56 (x y : Limbs) : Result (add56 x y) :=
  ⟨Limbs.within_masked, fits_statusBits _ _⟩

theorem result_sub56 (x y : Limbs) : Result (sub56 x y) :=
  ⟨Limbs.within_masked, fits_statusBits _ _⟩

variable {x : Limbs}

theorem within_abs56 (h : x.Within) : (abs56 x).1.Within := by
  unfold abs56
  split_ifs
  · exact (result_sub56 _ _).within
  · exact h

theorem within_mul56 (s1 s2 : U32) : (mul56 s1 s2).Within := by
  unfold mul56
  dsimp only
  split
  · exact (result_sub56 _ _).within
  · exact (result_asl56 _).within

theorem within_rnd56 (d : Dsp) (x : Limbs) : (d.rnd56 x).Within := by
  have hadd : ∀ y, (add56 y x).1.Within := fun y => (result_add56 y x).within
  unfold rnd56
  split
  · have h := hadd ⟨0, 1, 0⟩
    exact ⟨h.hi, fits_and_right (by decide), fits_zero⟩
  · split
    · have h := hadd ⟨0, 0, 1#32 <<< 22⟩
      exact ⟨h.hi, h.mid, fits_and_right (by decide)⟩
    · have h := hadd ⟨0, 0, 1#32 <<< 23⟩
      exact ⟨h.hi, fits_ite (fits_and_right (by decide)) h.mid, fits_zero⟩

theorem within_product (d : Dsp) (inst : U32) : (d.product inst).Within := by
  unfold product
  split_ifs
  · exact (result_sub56 _ _).within
  · exact within_mul56 _ _

theorem within_source24 (hw : d.WithinWidths) {r : ℕ} (hr : width r = 24) : (d.source24 r).Within :=
  ⟨fits_signLimb _, hr ▸ hw r, fits_zero⟩

theorem destOf_lt (inst : U32) : destOf inst < 2 := field_lt inst 3 1

theorem within_sourceXY (hw : d.WithinWidths) (h : d.sourceXY n = some x) : x.Within := by
  unfold sourceXY at h
  split at h
  · cases h; exact within_source24 hw rfl
  · cases h; exact within_source24 hw rfl
  · cases h; exact within_source24 hw rfl
  · cases h; exact within_source24 hw rfl
  · cases h

theorem within_sourceCmp (hw : d.WithinWidths) (h : d.sourceCmp inst = some x) : x.Within := by
  unfold sourceCmp at h
  split at h
  · cases h; exact within_accu hw (by omega)
  · exact within_sourceXY hw h

namespace Effect

variable {n : ℕ} {x : Limbs}

section

variable (h : Effect T C d₀ d)
include h

theorem setAccu (hn : n < 2) (hx : C → d₀.WithinWidths → x.Within) :
    Effect T C d₀ (d.setAccu n x) := by
  obtain ⟨h2, h1, h0⟩ := width_accu hn
  refine ((h.data ?_ ?_).data ?_ ?_).data ?_ ?_
  · simp only [regA2]; omega
  · intro hC hw; rw [h2]; exact (hx hC hw).hi
  · simp only [regA1]; omega
  · intro hC hw; rw [h1]; exact (hx hC hw).mid
  · simp only [regA0]; omega
  · intro hC hw; rw [h0]; exact (hx hC hw).lo

theorem ccr (x : Limbs) : Effect T C d₀ (d.ccr x) := by
  have hext : Effect T C d₀ (d.ccrExtension x.hi x.mid) := by
    unfold ccrExtension
    split
    · exact h
    · exact h.updateSr 0x20 (by decide) (by decide) (fits_ite (by decide) (by decide))
  have hunn : Effect T C d₀ ((d.ccrExtension x.hi x.mid).ccrUnnormalized x.hi x.mid) := by
    unfold ccrUnnormalized
    dsimp only
    split
    · exact hext
    · exact hext.updateSr 0x10 (by decide) (by decide) (fits_ite (by decide) (by decide))
  have hneg := hunn.updateSr 8 (by decide) (by decide)
    ((fits_shiftLeft (fits_bitAt x.hi 7) (k := 3)).mono (by decide : 1 + 3 ≤ 15))
  exact hneg.updateSr 4 (by decide) (by decide) (fits_ite (by decide) (by decide))

variable {newsr : U32}

/-! ## The ALU -/

theorem finish (hn : n < 2) (hx : C → d₀.WithinWidths → x.Within) (hs : Fits 15 newsr) :
    Effect T C d₀ (d.finish n x newsr) :=
  ((h.setAccu hn hx).ccr x).updateSr 3 (by decide) (by decide) hs

theorem finishShift (hn : n < 2) (hx : C → d₀.WithinWidths → x.Within) (hs : Fits 15 newsr) :
    Effect T C d₀ (d.finishShift n x newsr) :=
  ((h.setAccu hn hx).updateSr 3 (by decide) (by decide) hs).ccr x

theorem finishMul (hn : n < 2) (hx : C → d₀.WithinWidths → x.Within) (hs : Fits 15 newsr) :
    Effect T C d₀ (d.finishMul n x newsr) :=
  ((h.setAccu hn hx).ccr x).updateSr 2 (by decide) (by decide) hs

end

section Families

variable {op : Limbs → Limbs → Limbs × U32} {shift : Limbs → Limbs × U32}

theorem withCarry (h : Effect T C d₀ d) (hop : ∀ x y, Result (op x y)) (inst : U32) :
    Effect T C d₀ (d.withCarry op inst) := by
  unfold Dsp.withCarry
  dsimp only
  split_ifs
  · exact h.finish (destOf_lt inst) (fun _ _ => (hop _ _).within)
      (fits_or (hop _ _).flags (hop _ _).flags)
  · exact h.finish (destOf_lt inst) (fun _ _ => (hop _ _).within) (hop _ _).flags

theorem addSub (h : Effect T C d₀ d) (hop : ∀ x y, Result (op x y)) (inst : U32) :
    Effect T C d₀ (d.addSub op inst) := by
  unfold Dsp.addSub
  split
  · exact h
  · exact h.finish (destOf_lt inst) (fun _ _ => (hop _ _).within) (hop _ _).flags

theorem shiftOp (h : Effect T C d₀ d) (hsh : ∀ x, Result (shift x)) (hop : ∀ x y, Result (op x y))
    (inst : U32) : Effect T C d₀ (d.shiftOp shift op inst) :=
  h.finish (destOf_lt inst) (fun _ _ => (hop _ _).within) (fits_or (hsh _).flags (hop _ _).flags)

theorem shiftAccu (h : Effect T C d₀ d) (hsh : ∀ x, Result (shift x)) (inst : U32) :
    Effect T C d₀ (d.shiftAccu shift inst) :=
  h.finishShift (destOf_lt inst) (fun _ _ => (hsh _).within) (hsh _).flags

end Families

variable (h : Effect T C d₀ d)
include h

variable (inst : U32)

theorem mid {v : U32} (hv : C → d₀.WithinWidths → Fits 24 v) (clear : U32) {set : U32}
    (hc : (0xffff - clear).getLsbD 15 = true) (hm : Fits 16 (0xffff - clear)) (hs : Fits 15 set) :
    Effect T C d₀ ((d.setReg (midOf inst) v).updateSr clear set) := by
  have hlt := destOf_lt inst
  refine (h.data ?_ ?_).updateSr clear hc hm hs
  · simp only [midOf, regA1]; omega
  · intro hC hw
    rw [midOf, (width_accu hlt).2.1]
    exact hv hC hw

omit h in
theorem fits_flags24 (v : U32) : Fits 15 (flags24 v) :=
  fits_or ((fits_shiftLeft (fits_bitAt v 23)).mono (by decide : 1 + 3 ≤ 15))
    (fits_ite (by decide) (by decide))

theorem logical (inst v : U32) : Effect T C d₀ (d.logical inst v) :=
  h.mid inst (fun _ _ => fits_and_right (by decide)) 0xe (by decide) (by decide) (fits_flags24 _)

theorem rotate {newcarry : U32} (hn : Fits 1 newcarry)
    (v : U32) : Effect T C d₀ (d.rotate inst newcarry v) :=
  h.mid inst (fun _ _ => fits_and_right (by decide)) 0xf (by decide) (by decide)
    (fits_or (hn.mono (by decide)) (fits_flags24 _))

theorem lsr : Effect T C d₀ (d.lsr inst) := by
  refine h.mid inst (fun hC hw => ?_) 0xf (by decide) (by decide)
    (fits_or (fits_and_right (by decide)) (fits_ite (by decide) (by decide)))
  have hmid := (within_accu (h.within hC hw) (destOf_lt inst)).mid
  exact fits_ushiftRight hmid

theorem abs : Effect T C d₀ (d.abs inst) :=
  ((h.setAccu (destOf_lt inst) fun hC hw => within_abs56
    (within_accu (h.within hC hw) (destOf_lt inst))).updateSr
    2 (by decide) (by decide) (fits_ite (by decide) (by decide))).ccr _

theorem neg : Effect T C d₀ (d.neg inst) :=
  ((h.setAccu (destOf_lt inst) fun _ _ => (result_sub56 _ _).within).updateSr
    2 (by decide) (by decide) (fits_ite (by decide) (by decide))).ccr _

theorem cmp : Effect T C d₀ (d.cmp inst) := by
  unfold Dsp.cmp
  split
  · exact h
  · exact (h.ccr _).updateSr 3 (by decide) (by decide) (result_sub56 _ _).flags

theorem cmpm : Effect T C d₀ (d.cmpm inst) := by
  unfold Dsp.cmpm
  split
  · exact h
  · exact (h.ccr _).updateSr 3 (by decide) (by decide) (result_sub56 _ _).flags

theorem tfr : Effect T C d₀ (d.tfr inst) := by
  unfold Dsp.tfr
  split
  · exact h
  · exact h.setAccu (destOf_lt inst) fun hC hw => within_sourceCmp (h.within hC hw) ‹_›

theorem mac : Effect T C d₀ (d.mac inst) :=
  h.finishMul (destOf_lt inst) (fun _ _ => (result_add56 _ _).within) (fits_and_right (by decide))

theorem macr : Effect T C d₀ (d.macr inst) :=
  h.finishMul (destOf_lt inst) (fun _ _ => within_rnd56 _ _) (fits_and_right (by decide))

theorem mpy : Effect T C d₀ (d.mpy inst) :=
  h.finishMul (destOf_lt inst) (fun _ _ => within_product _ _) fits_zero

theorem mpyr : Effect T C d₀ (d.mpyr inst) :=
  h.finishMul (destOf_lt inst) (fun _ _ => within_rnd56 _ _) fits_zero

theorem rnd : Effect T C d₀ (d.rnd inst) :=
  (h.setAccu (destOf_lt inst) fun _ _ => within_rnd56 _ _).ccr _

theorem clr : Effect T C d₀ (d.clr inst) :=
  (h.setAccu (destOf_lt inst) fun _ _ => ⟨fits_zero, fits_zero, fits_zero⟩).updateSr
    0x2a (by decide) (by decide) (by decide)

/-- **Instructions with parallel moves.** -/
theorem callAlu : ∀ a, Effect T C d₀ (d.callAlu inst a)
  | .undefined => h.congr (fun _ => rfl) rfl
  | .abs => h.abs inst
  | .adc => h.withCarry result_add56 inst
  | .add => h.addSub result_add56 inst
  | .addl => h.shiftOp result_asl56 result_add56 inst
  | .addr => h.shiftOp result_asr56 result_add56 inst
  | .and | .eor | .not | .or => h.logical inst _
  | .asl => h.shiftAccu result_asl56 inst
  | .asr => h.shiftAccu result_asr56 inst
  | .clr => h.clr inst
  | .cmp => h.cmp inst
  | .cmpm => h.cmpm inst
  | .lsl | .rol => h.rotate inst (fits_bitAt _ _) _
  | .lsr => h.lsr inst
  | .mac => h.mac inst
  | .macr => h.macr inst
  | .move => h
  | .mpy => h.mpy inst
  | .mpyr => h.mpyr inst
  | .neg => h.neg inst
  | .rnd => h.rnd inst
  | .ror => h.rotate inst (fits_and_right (by decide)) _
  | .sbc => h.withCarry result_sub56 inst
  | .sub => h.addSub result_sub56 inst
  | .subl => h.shiftOp result_asl56 result_sub56 inst
  | .subr => h.shiftOp result_asr56 result_sub56 inst
  | .tfr => h.tfr inst
  | .tst => (h.ccr _).updateSr 2 (by decide) (by decide) fits_zero

theorem div : Effect T C d₀ (d.div inst) := by
  have hop : ∀ (b : Bool) x y, ((if b then add56 else sub56) x y).1.Within := by
    intro b x y
    cases b
    · exact (result_sub56 x y).within
    · exact (result_add56 x y).within
  refine (h.setAccu (destOf_lt inst) fun _ _ => ?_).updateSr 3 (by decide) (by decide) ?_
  · have hr := hop ((d.accu (destOf inst)).sign ^^ (d.source24 (sourceLogical inst)).mid.getLsbD 23)
      (d.source24 (sourceLogical inst)) (asl56 (d.accu (destOf inst))).1
    exact ⟨hr.hi, hr.mid, fits_or hr.lo ((fits_bitAt _ _).mono (by decide))⟩
  · exact fits_or (fits_or (fits_ite (by decide) (by decide)) (fits_and_right (by decide)))
      (fits_and_right (by decide))

theorem norm : Effect T C d₀ (d.norm inst) := by
  have hlt := field_lt inst 8 3
  have hstep : ∀ v : U32, Effect T C d₀ (d.setReg (regR0 + field inst 8 3) (v &&& 0xffff)) := by
    intro v
    refine h.data (by simp only [regR0]; omega) fun _ _ => ?_
    rw [(width_address hlt).1]
    exact fits_and_right (by decide)
  unfold Dsp.norm
  dsimp only
  split_ifs
  · exact (hstep _).finish (destOf_lt inst) (fun _ _ => (result_asl56 _).within)
      (result_asl56 _).flags
  · exact (hstep _).finish (destOf_lt inst) (fun _ _ => (result_asr56 _).within)
      (result_asr56 _).flags
  · exact h.finish (destOf_lt inst)
      (fun hC hw => within_accu (h.within hC hw) (destOf_lt inst)) fits_zero

end Effect

end Aranym.Dsp
