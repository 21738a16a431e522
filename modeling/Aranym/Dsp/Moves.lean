/-
  What the moves of the DSP can change: effective addresses, bit instructions,
  moves to registers, and parallel moves.

  The address of an operand can leave the 16 bits of its register in one way:
  a bit-reversed update without a step (`EaOk`).
-/
import Aranym.Dsp.Frame

namespace Aranym.Dsp

open Lib List
open BitVec hiding lt_of_getLsbD
open DspCore (regM0 regOMR)

variable {T : ℕ → Prop} {C : Prop} {d₀ d d' : Dsp} {inst : U32}

theorem not_control_sr : ¬ Control regSR := by
  rintro (hc | hc) <;> simp [regSR, regLCSAVE, regSP] at hc

theorem not_control_omr : ¬ Control regOMR := by
  rintro (hc | hc) <;> simp [regOMR, regLCSAVE, regSP] at hc

theorem getLsbD_byte (inst : U32) :
    ((field inst 8 8 : U32) <<< 8).getLsbD 15 = inst.getLsbD 15 := by
  have hbit : (field inst 8 8 : U32).getLsbD 7 = inst.getLsbD 15 := by
    rw [natCast_eq_ofNat, getLsbD_ofNat, field, Nat.testBit_mod_two_pow, toNat_ushiftRight,
      Nat.testBit_shiftRight]
    rfl
  rw [getLsbD_shiftLeft, hbit]
  rfl

/-! ## Effective addresses -/

/-- The address register is not updated, or its modifier or its offset is not zero. -/
def EaOk (d : Dsp) (ea : ℕ) : Prop :=
  ea / 8 % 8 = 4 ∨ ea / 8 % 8 = 6 ∨ (d.reg (regM0 + ea % 8)).setWidth 16 ≠ 0#16 ∨
    (d.reg (regN0 + ea % 8)).setWidth 16 ≠ 0#16
deriving Decidable

variable {v : U32}

theorem revBits_le (h : v.setWidth 16 ≠ 0#16) : revBits v ≤ 16 := by
  unfold revBits
  cases hf : (List.range 16).find? (fun i => v.getLsbD i) with
  | some i =>
    have := List.mem_range.1 (List.mem_of_find?_eq_some hf)
    simp only [Option.getD_some]; omega
  | none =>
    refine absurd (eq_of_getLsbD_eq fun i hi => ?_) h
    have hi' := List.find?_eq_none.1 hf i (List.mem_range.2 hi)
    simpa [hi] using hi'

variable {n : ℕ}

theorem fits_reverseBits (hn : n ≤ 16) {r : U32} (hr : Fits 16 r) : Fits 16 (reverseBits n r) := by
  have hstep : ∀ (is : List ℕ) (v : U32), (∀ i ∈ is, i < n) → Fits 16 v →
      Fits 16 (is.foldl (fun v i => if r.getLsbD i then v ||| 1#32 <<< (n - i - 1) else v) v) := by
    intro is
    induction is with
    | nil => intro v _ hv; exact hv
    | cons i is ih =>
      intro v hi hv
      have hbit : Fits 16 (1#32 <<< (n - i - 1)) :=
        (fits_shiftLeft (by decide : Fits 1 1#32)).mono (by omega)
      exact ih _ (fun j hj => hi j (by simp [hj])) (fits_ite (fits_or hv hbit) hv)
  exact hstep _ _ (fun i hi => List.mem_range.1 hi) (fits_and_left hr)

theorem fits_updateRnBitreverse {r : U32} (hr : Fits 16 r) (hv : v.setWidth 16 ≠ 0#16) :
    Fits 16 (reverseBits (revBits v)
      (r &&& (bitmask 16 - bitmask (revBits v)) |||
        ((reverseBits (revBits v) r + 1) &&& bitmask (revBits v)))) := by
  have hle := revBits_le hv
  refine fits_reverseBits hle (fits_or (fits_and_left hr) ?_)
  exact (fits_and_right (fits_bitmask (by omega))).mono hle

variable {r : ℕ}

theorem reg_updateRn {numreg : ℕ} (h : r ≠ regR0 + numreg) (modifier : U16) :
    (d.updateRn numreg modifier).reg r = d.reg r := by
  unfold updateRn
  dsimp only
  split_ifs
  · exact reg_setReg_of_ne d h _
  · exact reg_setReg_of_ne d h _
  · exact reg_setReg_of_ne d h _
  · rfl

theorem reg_calcEa {ea : ℕ} (h : r ≠ regR0 + ea % 8) : (d.calcEa ea).2.2.reg r = d.reg r := by
  unfold calcEa
  split
  · exact reg_updateRn h _
  · exact reg_updateRn h _
  · exact reg_updateRn h _
  · exact reg_updateRn h _
  · rfl
  · rw [reg_setReg_of_ne _ h]; exact reg_updateRn h _
  · rfl
  · exact reg_updateRn h _

theorem eaOk_calcEa (ea ea' : ℕ) : (d.calcEa ea).2.2.EaOk ea' ↔ d.EaOk ea' := by
  have hm : regM0 + ea' % 8 ≠ regR0 + ea % 8 := by simp only [regM0, regR0]; omega
  have hn : regN0 + ea' % 8 ≠ regR0 + ea % 8 := by simp only [regN0, regR0]; omega
  unfold EaOk
  rw [reg_calcEa hm, reg_calcEa hn]

namespace Effect

theorem updateRn (h : Effect T C d₀ d) {n : ℕ} (hn : n < 8) (modifier : U16)
    (hok : C → (d.reg (regM0 + n)).setWidth 16 ≠ 0#16 ∨ (d.reg (regN0 + n)).setWidth 16 ≠ 0#16) :
    Effect T C d₀ (d.updateRn n modifier) := by
  have hlt : regR0 + n < 0x28 := by simp only [regR0]; omega
  have hwidth := (width_address hn).1
  have h16 : ∀ v : U16, C → d₀.WithinWidths → Fits (width (regR0 + n)) (v.setWidth 32) := by
    intro v _ _
    rw [hwidth]
    exact fits_setWidth (fits_self le_rfl)
  unfold Dsp.updateRn
  dsimp only
  split_ifs with hm
  · refine h.data hlt fun hC hw => ?_
    rw [hwidth]
    have hr : Fits 16 (d.reg (regR0 + n)) := hwidth ▸ h.within hC hw _
    rcases hok hC with hne | hne
    · exact absurd hm hne
    · exact fits_updateRnBitreverse hr hne
  · exact h.data hlt (h16 _)
  · exact h.data hlt (h16 _)
  · exact h

/-- **Effective addresses.** -/
theorem calcEa (h : Effect T C d₀ d) (ea : ℕ) (hok : C → d.EaOk ea) :
    Effect T C d₀ (d.calcEa ea).2.2 := by
  have hlt : ea % 8 < 8 := Nat.mod_lt _ (by decide)
  have hupdate : ∀ m, ea / 8 % 8 ≠ 4 → ea / 8 % 8 ≠ 6 → Effect T C d₀ (d.updateRn (ea % 8) m) := by
    intro m h4 h6
    refine h.updateRn hlt m fun hC => ?_
    rcases hok hC with he | he | hok'
    · exact absurd he h4
    · exact absurd he h6
    · exact hok'
  unfold Dsp.calcEa
  split
  · exact hupdate _ (by omega) (by omega)
  · exact hupdate _ (by omega) (by omega)
  · exact hupdate _ (by omega) (by omega)
  · exact hupdate _ (by omega) (by omega)
  · exact h
  · refine (hupdate _ (by omega) (by omega)).data (by simp only [regR0]; omega) fun hC hw => ?_
    exact h.within hC hw _
  · exact h.congr (fun _ => rfl) rfl
  · exact hupdate _ (by assumption) (by assumption)

end Effect

/-! ## Registers by number -/

namespace Effect

theorem named (h : Effect T C d₀ d) {r : ℕ} {v : U32} (hT : 0x28 ≤ r → T r)
    (hv : C → d₀.WithinWidths → Fits (width r) v) : Effect T C d₀ (d.setReg r v) := by
  refine h.setReg r v ?_ ?_ hv
  · rintro (hc | hc) <;> simp only [regLCSAVE, regSP] at hc <;> exact hT (by omega)
  · rintro rfl hn
    exact absurd (hT (by decide)) hn

theorem writeDest (h : Effect T C d₀ d) {r : ℕ} (v : U32) (hT : 0x28 ≤ r → T r) :
    Effect T C d₀ (d.writeDest r v) := by
  unfold Dsp.writeDest
  split_ifs
  · exact h.setAccu (Nat.mod_lt _ (by decide)) fun _ _ =>
      ⟨fits_signLimb _, fits_and_right (by decide), fits_zero⟩
  · exact h.named hT fun _ _ => fits_registersMask _ _

theorem readSource (h : Effect T C d₀ d) (r : ℕ) : Effect T C d₀ (d.readSource r).2 := by
  unfold Dsp.readSource
  split_ifs
  · exact h.limit _
  · exact h

end Effect

theorem fits_pmReadAccu24 (hw : d.WithinWidths) (r : ℕ) : Fits 24 (d.pmReadAccu24 r).1 := by
  have hmid := (within_accu hw (Nat.mod_lt r (by decide : 0 < 2))).mid
  unfold pmReadAccu24
  dsimp only
  split
  all_goals
    split_ifs
    · exact hmid
    all_goals decide

/-! ## Bits -/

theorem fits_setBit {w : ℕ} (hv : Fits w v) (hn : n < w) : Fits w (v ||| 1#32 <<< n) :=
  fits_or hv ((fits_shiftLeft (by decide : Fits 1 1#32)).mono (by omega))

theorem not_bit (n : ℕ) : ~~~ (1#32 <<< n) = 0xffffffff - 1#32 <<< n := by
  rw [← allOnes_sub_eq_not]
  rfl

theorem flipBit_eq (v : U32) (n : ℕ) :
    (if v.getLsbD n then v - 1#32 <<< n else v + 1#32 <<< n) = v ^^^ 1#32 <<< n := by
  split_ifs with hb
  · -- without its bit the value takes the bit back by addition
    have hclear : (v ^^^ 1#32 <<< n) &&& 1#32 <<< n = 0#32 := by
      rw [and_bit_eq_zero, getLsbD_xor, hb, getLsbD_bit]
      simp [lt_of_getLsbD hb]
    have hback : (v ^^^ 1#32 <<< n) + 1#32 <<< n = v := by
      rw [add_eq_or_of_and_eq_zero _ _ hclear]
      refine eq_of_getLsbD_eq fun i hi => ?_
      rw [getLsbD_or, getLsbD_xor, getLsbD_bit]
      by_cases hin : i = n
      · subst hin; simp [hb, hi]
      · simp [hin]
    calc v - 1#32 <<< n = (v ^^^ 1#32 <<< n) + 1#32 <<< n - 1#32 <<< n := by rw [hback]
      _ = v ^^^ 1#32 <<< n := BitVec.add_sub_cancel _ _
  · have hclear : v &&& 1#32 <<< n = 0#32 := and_bit_eq_zero.2 (by simpa using hb)
    rw [add_eq_or_of_and_eq_zero _ _ hclear]
    refine eq_of_getLsbD_eq fun i hi => ?_
    rw [getLsbD_or, getLsbD_xor, getLsbD_bit]
    by_cases hin : i = n
    · subst hin; simp [hb]
    · simp [hin]

theorem fits_flipBit {w : ℕ} (hv : Fits w v) (hn : n < w) :
    Fits w (if v.getLsbD n then v - 1#32 <<< n else v + 1#32 <<< n) := by
  rw [flipBit_eq]
  refine fits_of_getLsbD fun k hk => ?_
  rw [getLsbD_xor, getLsbD_of_fits hv hk, getLsbD_bit]
  have hkn : k ≠ n := by omega
  simp [hkn]

theorem bitOperand_reg {numreg : ℕ} (h : (d.bitOperand inst).2.1 = .reg numreg) :
    field inst 14 2 = 3 ∧ d.bitOperand inst = (d.reg numreg, .reg numreg, d) ∧
    numreg = bitReg (field inst 8 6) := by
  have hlt := field_lt inst 14 2
  unfold bitOperand at h ⊢
  split at h
  · cases h
  · cases h
  · cases h
  · cases h
    exact ⟨by grind, rfl, rfl⟩

/-- The register that a bit instruction changes; in `SR` only `LF` counts. -/
def bitTargets (inst : U32) : List ℕ :=
  let r := bitReg (field inst 8 6)
  if field inst 14 2 = 3 ∧ (r = regSR → field inst 0 5 = 15) then [r] else []

theorem mem_bitTargets (h3 : field inst 14 2 = 3)
    (hsr : bitReg (field inst 8 6) = regSR → field inst 0 5 = 15) :
    bitReg (field inst 8 6) ∈ bitTargets inst := by
  simp only [bitTargets, if_pos (And.intro h3 hsr), mem_singleton]

namespace Effect

variable (h : Effect T C d₀ d)
include h

variable (inst : U32)

section

variable (hok : C → field inst 14 2 = 1 → d.EaOk (field inst 8 6))
include hok

theorem bitOperand : Effect T C d₀ (d.bitOperand inst).2.2 := by
  unfold Dsp.bitOperand
  split
  · exact h.readMemory _ _
  · exact (h.calcEa _ fun hC => hok hC (by assumption)).readMemory _ _
  · exact h.readMemory _ _
  · exact h

theorem btst : Effect T C d₀ (d.btst inst) :=
  (h.bitOperand inst hok).updateSr 1 (by decide) (by decide) ((fits_bitAt _ _).mono (by decide))

variable (hT : ∀ r ∈ bitTargets inst, T r)
include hT

/-- **Bit instructions.** -/
theorem bitOp {f : U32 → ℕ → U32} {ext : U32 → U32}
    (hf : C → field inst 14 2 = 3 → ∀ v, Fits (width (bitReg (field inst 8 6))) v →
      Fits (width (bitReg (field inst 8 6))) (f v (field inst 0 5)))
    (hother : ∀ v n, n ≠ 15 → (f v n).getLsbD 15 = v.getLsbD 15)
    (hext : ∀ v, Fits 8 (ext v)) : Effect T C d₀ (d.bitOp f ext inst) := by
  have hop := h.bitOperand inst hok
  unfold Dsp.bitOp
  dsimp only
  refine Effect.updateSr ?_ 1 (by decide) (by decide) ((fits_bitAt _ _).mono (by decide))
  split
  · exact hop.writeMemory _ _ _
  · obtain ⟨h3, heq, rfl⟩ := bitOperand_reg ‹_›
    rw [heq] at hop ⊢
    have hset : Effect T C d₀ (d.setReg (bitReg (field inst 8 6))
        (f (d.reg (bitReg (field inst 8 6))) (field inst 0 5))) := by
      have hv : C → d₀.WithinWidths → _ :=
        fun hC hw => hf hC h3 _ (h.within hC hw (bitReg (field inst 8 6)))
      by_cases hsr : bitReg (field inst 8 6) = regSR ∧ field inst 0 5 ≠ 15
      · refine hop.setReg _ _ (fun hc => absurd (hsr.1 ▸ hc) not_control_sr) (fun _ _ => ?_) hv
        rw [hother _ _ hsr.2, hsr.1, Dsp.lf]
      · exact hop.named
          (fun _ => hT _ (mem_bitTargets h3 fun hr => by_contra fun hn => hsr ⟨hr, hn⟩)) hv
    split_ifs
    · have hn : field inst 8 6 % 2 < 2 := Nat.mod_lt _ (by decide)
      refine hset.data (by simp only [regA2]; omega) fun _ _ => ?_
      rw [(width_accu hn).1]
      exact hext _
    · exact hset

theorem bclr : Effect T C d₀ (d.bclr inst) := by
  refine h.bitOp inst hok hT (fun _ _ _ hv => fits_and_left hv) (fun v n hn => ?_)
    fun _ => by decide
  rw [← not_bit, getLsbD_and, getLsbD_not, getLsbD_bit]
  simp [Ne.symm hn]

variable (hbit : C → field inst 14 2 = 3 → field inst 0 5 < width (bitReg (field inst 8 6)))
include hbit

theorem bset : Effect T C d₀ (d.bset inst) := by
  refine h.bitOp inst hok hT (fun hC h3 _ hv => fits_setBit hv (hbit hC h3)) (fun v n hn => ?_)
    fun _ => by decide
  rw [getLsbD_or, getLsbD_bit]
  simp [Ne.symm hn]

theorem bchg : Effect T C d₀ (d.bchg inst) := by
  refine h.bitOp inst hok hT (fun hC h3 v hv => ?_) (fun v n hn => ?_) fun _ =>
    fits_ite (by decide) (by decide)
  · exact fits_flipBit hv (hbit hC h3)
  · rw [flipBit_eq, getLsbD_xor, getLsbD_bit]
    simp [Ne.symm hn]

end

/-! ## Moves -/

theorem lua (hok : C → d.EaOk (field inst 8 5)) : Effect T C d₀ (d.lua inst) := by
  have hsrc := field_lt inst 8 3
  have hdst := field_lt inst 0 3
  have hea := h.calcEa _ hok
  have hwidth := (width_address hsrc).1
  have hlt : regR0 + field inst 8 3 < 0x28 := by simp only [regR0]; omega
  have hsave : Effect T C d₀ ((d.calcEa (field inst 8 5)).2.2.setReg (regR0 + field inst 8 3)
      (d.reg (regR0 + field inst 8 3))) := hea.data hlt fun hC hw => h.within hC hw _
  have hnew : C → d₀.WithinWidths →
    Fits 16 ((d.calcEa (field inst 8 5)).2.2.reg (regR0 + field inst 8 3)) :=
    fun hC hw => hwidth ▸ hea.within hC hw _
  unfold Dsp.lua
  split_ifs
  · refine hsave.data (by simp only [regN0]; omega) fun hC hw => ?_
    rw [(width_address hdst).2.1]; exact hnew hC hw
  · refine hsave.data (by simp only [regR0]; omega) fun hC hw => ?_
    rw [(width_address hdst).1]; exact hnew hC hw

theorem tcc : Effect T C d₀ (d.tcc inst) := by
  have hsrc := field_lt inst 8 3
  have hdst := field_lt inst 0 3
  have hacc : Effect T C d₀ (d.setAccu ((registersTcc (field inst 3 4)).2 % 2)
      (if isAccu (registersTcc (field inst 3 4)).1 then d.accu
        ((registersTcc (field inst 3 4)).1 % 2)
        else d.source24 (registersTcc (field inst 3 4)).1)) := by
    refine h.setAccu (Nat.mod_lt _ (by decide)) fun hC hw => ?_
    have hw := h.within hC hw
    split_ifs with ha
    · exact within_accu hw (Nat.mod_lt _ (by decide))
    · have hall : ∀ n < 16, ¬ isAccu (registersTcc n).1 → width (registersTcc n).1 = 24 := by decide
      exact within_source24 hw (hall _ (field_lt inst 3 4) ha)
  unfold Dsp.tcc
  split
  · dsimp only
    split
    · refine hacc.data (by simp only [regR0]; omega) fun hC hw => ?_
      rw [(width_address hdst).1, ← (width_address hsrc).1]
      exact hacc.within hC hw _
    · exact hacc
  · exact h

/-- `SR` or `OMR` is combined with a byte; `SR` counts as written if that changes `LF`. -/
theorem andi (hT : field inst 0 2 = 0 → inst.getLsbD 15 = false → T regSR) :
    Effect T C d₀ (d.andi inst) := by
  have hwithin : ∀ r v, C → d₀.WithinWidths → Fits (width r) (d.reg r &&& v) := fun r v hC hw =>
    fits_and_left (h.within hC hw r)
  unfold Dsp.andi
  split
  · refine h.setReg regSR _ (fun hc => absurd hc not_control_sr) (fun _ hn => ?_) (hwithin _ _)
    have h15 : inst.getLsbD 15 = true := by
      cases hb : inst.getLsbD 15 with
      | true => rfl
      | false => exact absurd (hT ‹_› hb) hn
    rw [getLsbD_and, getLsbD_or, getLsbD_byte, h15, Bool.true_or, Bool.and_true, Dsp.lf]
  · refine h.setReg regSR _ (fun hc => absurd hc not_control_sr) (fun _ hn => ?_) (hwithin _ _)
    simp [Dsp.lf]
  · exact h.setReg regOMR _ (fun hc => absurd hc not_control_omr)
      (fun heq => by simp [regOMR, regSR] at heq)
      (hwithin _ _)
  · exact h

theorem ori (hT : field inst 0 2 = 0 → inst.getLsbD 15 = true → T regSR) :
    Effect T C d₀ (d.ori inst) := by
  have hbyte : Fits 8 (field inst 8 8 : U32) := fits_ofNat (field_lt inst 8 8)
  unfold Dsp.ori
  split
  · refine h.setReg regSR _ (fun hc => absurd hc not_control_sr) (fun _ hn => ?_) fun hC hw =>
      fits_or (h.within hC hw regSR) (fits_shiftLeft hbyte)
    have h15 : inst.getLsbD 15 = false := by
      cases hb : inst.getLsbD 15 with
      | false => rfl
      | true => exact absurd (hT ‹_› hb) hn
    rw [getLsbD_or, getLsbD_byte, h15, Bool.or_false, Dsp.lf]
  · refine h.setReg regSR _ (fun hc => absurd hc not_control_sr) (fun _ hn => ?_) fun hC hw =>
      fits_or (h.within hC hw regSR) (hbyte.mono (by decide))
    rw [getLsbD_or, getLsbD_of_fits hbyte (by decide), Bool.or_false, Dsp.lf]
  · exact h.setReg regOMR _ (fun hc => absurd hc not_control_omr)
      (fun heq => by simp [regOMR, regSR] at heq)
      fun hC hw => fits_or (h.within hC hw regOMR) hbyte
  · exact h

end Effect

/-! ## Two writes of one register -/

theorem setReg_setReg (d : Dsp) (r : ℕ) (v w : U32) : (d.setReg r v).setReg r w = d.setReg r w := by
  unfold setReg
  rw [Function.update_idem]

theorem setReg_comm (d : Dsp) {r' : ℕ} (h : r ≠ r') (v w : U32) :
    (d.setReg r v).setReg r' w = (d.setReg r' w).setReg r v := by
  unfold setReg
  rw [Function.update_comm h]

theorem setReg_limit_setReg (d : Dsp) (r : ℕ) (v w : U32) (limited : Bool) :
    ((d.setReg r v).limit limited).setReg r w =
      if r = regSR then d.setReg r w else (d.limit limited).setReg r w := by
  unfold limit
  split_ifs with hl hr hr
  · subst hr; rw [setReg_setReg, setReg_setReg]
  · rw [reg_setReg_of_ne _ (Ne.symm hr), setReg_comm _ hr, setReg_setReg]
  all_goals exact setReg_setReg _ _ _ _

namespace Effect

variable (h : Effect T C d₀ d)
include h

theorem accuInto {r : ℕ} (v w : U32) (limited : Bool) (hT : 0x28 ≤ r → T r)
    (hw : C → d₀.WithinWidths → Fits (width r) w) :
    Effect T C d₀ (((d.setReg r v).limit limited).setReg r w) := by
  rw [setReg_limit_setReg]
  split_ifs
  · exact h.named hT hw
  · exact (h.limit _).named hT hw

variable (inst)

theorem movecReg (h1 : inst.getLsbD 15 = true → 0x28 ≤ field inst 0 6 → T (field inst 0 6))
    (h2 : inst.getLsbD 15 = false → 0x28 ≤ field inst 8 6 → T (field inst 8 6)) :
    Effect T C d₀ (d.movecReg inst) := by
  unfold Dsp.movecReg
  dsimp only
  split_ifs with h15 ha
  · exact h.accuInto _ _ _ (h1 h15) fun _ _ => fits_registersMask _ _
  · rw [setReg_setReg]
    exact h.named (h1 h15) fun _ _ => fits_registersMask _ _
  · exact h.writeDest _ (h2 (by simpa using h15))

theorem movecAa (hT : inst.getLsbD 15 = true → 0x28 ≤ field inst 0 6 → T (field inst 0 6)) :
    Effect T C d₀ (d.movecAa inst) := by
  unfold Dsp.movecAa
  split_ifs with h15
  · exact (h.readMemory _ _).named (hT h15) fun _ _ => fits_registersMask _ _
  · exact h.writeMemory _ _ _

theorem movecEa (hok : C → d.EaOk (field inst 8 6))
    (hT : inst.getLsbD 15 = true → 0x28 ≤ field inst 0 6 → T (field inst 0 6)) :
    Effect T C d₀ (d.movecEa inst) := by
  have hea := h.calcEa _ hok
  unfold Dsp.movecEa
  dsimp only
  split_ifs with h15
  · exact hea.named (hT h15) fun _ _ => fits_registersMask _ _
  · exact (hea.readMemory _ _).named (hT h15) fun _ _ => fits_registersMask _ _
  · exact hea.writeMemory _ _ _

theorem movecImm (hT : 0x28 ≤ field inst 0 6 → T (field inst 0 6))
    (hv : C → field inst 8 8 < 2 ^ width (field inst 0 6)) : Effect T C d₀ (d.movecImm inst) :=
  h.named hT fun hC _ => fits_ofNat (hv hC)

theorem movem (hok : C → inst.getLsbD 14 = true → d.EaOk (field inst 8 6))
    (hT : inst.getLsbD 15 = true → 0x28 ≤ field inst 0 6 → T (field inst 0 6)) :
    Effect T C d₀ (d.movem inst) := by
  unfold Dsp.movem
  dsimp only
  split_ifs with h15 h14 h14
  · exact (h.calcEa _ fun hC => hok hC h14).writeDest _ (hT h15)
  · exact h.writeDest _ (hT h15)
  · exact ((h.calcEa _ fun hC => hok hC h14).readSource _).writeMemory _ _ _
  · exact (h.readSource _).writeMemory _ _ _

theorem movep0 (hT : inst.getLsbD 15 = false → 0x28 ≤ field inst 8 6 → T (field inst 8 6)) :
    Effect T C d₀ (d.movep0 inst) := by
  unfold Dsp.movep0
  split_ifs with h15
  · exact (h.readSource _).writeMemory _ _ _
  · exact (h.readMemory _ _).writeDest _ (hT (by simpa using h15))

theorem movep1 (hok : C → d.EaOk (field inst 8 6)) : Effect T C d₀ (d.movep1 inst) := by
  have hea := h.calcEa _ hok
  unfold Dsp.movep1
  split_ifs
  · exact hea.writeMemory _ _ _
  · exact (hea.readMemory _ _).writeMemory _ _ _

theorem movep2 (hok : C → d.EaOk (field inst 8 6)) : Effect T C d₀ (d.movep2 inst) := by
  have hea := h.calcEa _ hok
  unfold Dsp.movep2
  dsimp only
  split_ifs
  · exact hea.writeMemory _ _ _
  all_goals exact (hea.readMemory _ _).writeMemory _ _ _

end Effect

/-! ## Parallel moves -/

/-- A destination is a data or address register and gets a value within its width. -/
def PmWrite.Ok (C : Prop) (d₀ : Dsp) : PmWrite → Prop
  | .reg r v => r < 0x28 ∧ (C → d₀.WithinWidths → Fits (width r) v)
  | .mem _ _ _ => True

theorem ok_pmWritereg (hr : r < 0x28) {x : Limbs} (hx : C → d₀.WithinWidths → isAccu r → x.Within)
    (hv : C → d₀.WithinWidths → ¬ isAccu r → Fits (width r) x.mid) :
    ∀ w ∈ pmWritereg r x, w.Ok C d₀ := by
  have hn : r % 2 < 2 := Nat.mod_lt _ (by decide)
  obtain ⟨h2, h1, h0⟩ := width_accu hn
  unfold pmWritereg
  split_ifs with ha
  · simp only [mem_cons, not_mem_nil, or_false]
    rintro w (rfl | rfl | rfl)
    · exact ⟨by simp only [regA2]; omega, fun hC hw => h2 ▸ (hx hC hw ha).hi⟩
    · exact ⟨by simp only [regA1]; omega, fun hC hw => h1 ▸ (hx hC hw ha).mid⟩
    · exact ⟨by simp only [regA0]; omega, fun hC hw => h0 ▸ (hx hC hw ha).lo⟩
  · simp only [mem_singleton]
    rintro w rfl
    exact ⟨hr, fun hC hw => hv hC hw ha⟩

theorem within_pmValue (ha : isAccu r) (v : U32) : (pmValue r v).Within := by
  have hwidth : width r = 24 := by rcases ha with rfl | rfl <;> rfl
  exact ⟨fits_signLimb _, hwidth ▸ fits_registersMask v r, fits_zero⟩

theorem ok_pmWritereg_pmValue (hr : r < 0x28) (v : U32) :
    ∀ w ∈ pmWritereg r (pmValue r v), w.Ok C d₀ :=
  ok_pmWritereg hr (fun _ _ ha => within_pmValue ha v) fun _ _ _ => fits_registersMask v r

/-- The effect of the first half of a parallel move. -/
structure Reads (T : ℕ → Prop) (C : Prop) (d₀ : Dsp) (r : Dsp × List PmWrite) : Prop where
  effect : Effect T C d₀ r.1
  ok : ∀ w ∈ r.2, w.Ok C d₀

namespace Effect

theorem parmoveWrite (ws : List PmWrite) :
    ∀ {d : Dsp}, Effect T C d₀ d → (∀ w ∈ ws, w.Ok C d₀) → Effect T C d₀ (d.parmoveWrite ws) := by
  induction ws with
  | nil => intro d h _; exact h
  | cons w ws ih =>
    intro d h hok
    refine ih (d := d.pmWrite w) ?_ fun w' hw' => hok w' (by simp [hw'])
    have hw := hok w (by simp)
    cases w with
    | reg r v => exact h.data hw.1 hw.2
    | mem space addr v => exact h.writeMemory _ _ _

variable (h : Effect T C d₀ d) (inst)
include h

theorem pmMove (toReg : Bool) (space : DspSpace) (addr : U32) (retour : Bool) {r : ℕ}
    (hr : r < 0x28) : Reads T C d₀ (d.pmMove toReg space addr retour r) := by
  unfold Dsp.pmMove
  split_ifs
  · exact ⟨h, ok_pmWritereg_pmValue hr _⟩
  · exact ⟨h.readMemory _ _, ok_pmWritereg_pmValue hr _⟩
  · exact ⟨h.readSource _, by simp [PmWrite.Ok]⟩

theorem pmAddr (hok : C → inst.getLsbD 14 = true → d.EaOk (field inst 8 6)) :
    Effect T C d₀ (d.pmAddr inst).2.2 := by
  unfold Dsp.pmAddr
  split_ifs with h14
  · exact h.calcEa _ fun hC => hok hC h14
  · exact h

theorem pm0 (hok : C → d.EaOk (field inst 8 6)) : Reads T C d₀ (d.pm0 inst) := by
  have hea := (h.calcEa _ hok).limit
    ((d.calcEa (field inst 8 6)).2.2.pmReadAccu24 (field inst 16 1)).2
  have hn : field inst 16 1 < 2 := field_lt inst 16 1
  have hm : field inst 15 1 < 2 := field_lt inst 15 1
  obtain ⟨h2, h1, h0⟩ := width_accu hn
  refine ⟨hea, ?_⟩
  have hx : C → d₀.WithinWidths → _ := fun hC hw =>
    within_source24 (hea.within hC hw) (width_xy (n := field inst 15 1 * 2) (by omega))
  simp only [Dsp.pm0, mem_cons, not_mem_nil, or_false]
  rintro w (rfl | rfl | rfl | rfl)
  · trivial
  · exact ⟨by simp only [regA2]; omega, fun hC hw => h2 ▸ (hx hC hw).hi⟩
  · exact ⟨by simp only [regA1]; omega, fun hC hw => h1 ▸ (hx hC hw).mid⟩
  · exact ⟨by simp only [regA0]; omega, fun hC hw => h0 ▸ (hx hC hw).lo⟩

theorem pm1 (hok : C → d.EaOk (field inst 8 6)) : Reads T C d₀ (d.pm1 inst) := by
  have hx : ∀ n < 4, xReg n < 0x28 := by decide
  have hy : ∀ n < 4, yReg n < 0x28 := by decide
  have h18 := field_lt inst 18 1
  have h16 := field_lt inst 16 1
  have hreg : (if field inst 14 1 =
      1 then yReg (field inst 16 2) else xReg (field inst 18 2)) < 0x28 := by
    split_ifs
    · exact hy _ (field_lt inst 16 2)
    · exact hx _ (field_lt inst 18 2)
  have hmove :=
    (h.calcEa _ hok).pmMove (inst.getLsbD 15) (spaceOf (field inst 14 1))
      (d.calcEa (field inst 8 6)).1
    (d.calcEa (field inst 8 6)).2.1 hreg
  refine ⟨hmove.effect.limit _, ?_⟩
  simp only [Dsp.pm1, mem_append, mem_singleton]
  rintro w (hw | rfl)
  · exact hmove.ok w hw
  · refine ⟨?_, fun _ _ => fits_registersMask _ _⟩
    split_ifs
    · simp only [regX0]; omega
    · simp only [regY0]; omega

end Effect

/-- The value that a move between registers takes from its source. -/
def movedValue (d : Dsp) (inst : U32) : U32 :=
  let srcreg := field inst 13 5
  if isAccu srcreg then (d.pmReadAccu24 srcreg).1
    else d.reg srcreg &&& bitmask (registersMask srcreg)

/-- A move between registers, to one that is wide enough for the value. -/
def MoveOk (d : Dsp) (inst : U32) : Prop :=
  isAccu (field inst 8 5) ∨ Fits (width (field inst 8 5)) (d.movedValue inst)
deriving Decidable

theorem fits_movedValue (hw : d.WithinWidths) (inst : U32) : Fits 24 (d.movedValue inst) := by
  unfold movedValue
  dsimp only
  split_ifs
  · exact fits_pmReadAccu24 hw _
  · have hle : ∀ r < 32, registersMask r ≤ 24 := by decide
    exact (fits_and_right (fits_bitmask (registersMask_lt _))).mono (hle _ (field_lt inst 13 5))

namespace Effect

variable (h : Effect T C d₀ d) (inst)
include h

theorem pm2_2 (hmove : C → d.MoveOk inst) : Reads T C d₀ (d.pm2_2 inst) := by
  have hlt := field_lt inst 8 5
  have hdst : field inst 8 5 < 0x28 := by omega
  have hok : ∀ s : U32, (isAccu (field inst 8 5) → Fits 8 s) →
      ∀ w ∈ pmWritereg (field inst 8 5) ⟨s, d.movedValue inst, 0⟩, w.Ok C d₀ := by
    intro s hs
    refine ok_pmWritereg hdst (fun hC hw ha => ?_) fun hC hw ha => ?_
    · exact ⟨hs ha, fits_movedValue (h.within hC hw) inst, fits_zero⟩
    · rcases hmove hC with hm | hm
      · exact absurd hm ha
      · exact hm
  by_cases ha : isAccu (field inst 13 5)
  · have hv : d.movedValue inst = (d.pmReadAccu24 (field inst 13 5)).1 := if_pos ha
    rw [Dsp.pm2_2, if_pos ha]
    rw [hv] at hok
    exact ⟨h.limit _, hok _ fun _ => fits_signLimb _⟩
  · have hv : d.movedValue inst =
      d.reg (field inst 13 5) &&& bitmask (registersMask (field inst 13 5)) := if_neg ha
    rw [Dsp.pm2_2, if_neg ha]
    rw [hv] at hok
    exact ⟨h, hok _ fun _ => fits_ite (fits_signLimb _) fits_zero⟩

theorem pm3 : Reads T C d₀ (d.pm3 inst) := by
  have hlt := field_lt inst 16 5
  refine ⟨h, ok_pmWritereg (by omega) (fun _ _ ha => ?_) fun _ _ _ => fits_registersMask _ _⟩
  exact ⟨fits_ite (fits_signLimb _) fits_zero, (within_pmValue ha _).mid, fits_zero⟩

theorem pm2 (hok : C → field inst 8 16 ≠ 0x2000 → inst >>> 8 &&& 0xffe0 = 0x2040 →
    d.EaOk (field inst 8 5))
    (hmove : C → field inst 8 16 ≠ 0x2000 → inst >>> 8 &&& 0xffe0 ≠ 0x2040 →
      inst >>> 8 &&& 0xfc00 = 0x2000 →
      d.MoveOk inst) : Reads T C d₀ (d.pm2 inst) := by
  unfold Dsp.pm2
  split_ifs with h0 h1 h2
  · exact ⟨h, by simp⟩
  · exact ⟨h.calcEa _ fun hC => hok hC h0 h1, by simp⟩
  · exact h.pm2_2 inst fun hC => hmove hC h0 h1 h2
  · exact h.pm3 inst

theorem pm4xSource (n : ℕ) : Effect T C d₀ (d.pm4xSource n).2.2 := by
  unfold Dsp.pm4xSource
  dsimp only
  split_ifs
  · exact h
  · exact h.limit _
  · exact h.limit _
  · exact h.limit _
  · exact (h.limit _).limit _

theorem pm4x (addr : U32) : Reads T C d₀ (d.pm4x inst addr) := by
  have hall : ∀ n < 8, (registersLmove n).1 < 0x28 ∧ (registersLmove n).2 < 0x28 := by decide
  have h2 := field_lt inst 16 2
  have h1 := field_lt inst 19 1
  obtain ⟨hr0, hr1⟩ := hall (field inst 16 2 + field inst 19 1 * 4) (by omega)
  unfold Dsp.pm4x
  dsimp only
  split_ifs with h15 heq
  · refine ⟨(h.readMemory _ _).readMemory _ _,
      ok_pmWritereg hr0 (fun _ _ ha => ?_) fun _ _ _ => fits_registersMask _ _⟩
    have hv := within_pmValue ha
    refine ⟨(hv _).hi, (hv _).mid, ?_⟩
    rw [← heq]
    exact (hv _).mid
  · refine ⟨(h.readMemory _ _).readMemory _ _, fun w hw => ?_⟩
    rcases List.mem_append.1 hw with hw | hw
    · exact ok_pmWritereg_pmValue hr0 _ w hw
    · exact ok_pmWritereg_pmValue hr1 _ w hw
  · exact ⟨h.pm4xSource _, by simp [PmWrite.Ok]⟩

theorem pm5 (hok : C → inst.getLsbD 14 = true → d.EaOk (field inst 8 6)) :
    Reads T C d₀ (d.pm5 inst) := by
  have h3 := field_lt inst 16 3
  have h2 := field_lt inst 20 2
  exact (h.pmAddr inst hok).pmMove _ _ _ _ (by omega)

theorem pm4 (hok : C → inst.getLsbD 14 = true → d.EaOk (field inst 8 6)) :
    Reads T C d₀ (d.pm4 inst) := by
  unfold Dsp.pm4
  split_ifs
  · exact (h.pmAddr inst hok).pm4x inst _
  · exact h.pm5 inst hok

theorem pm8 (h1 : C → d.EaOk (pm8Ea inst).1)
    (h2 : C → d.EaOk (pm8Ea inst).2) : Reads T C d₀ (d.pm8 inst) := by
  have hx : ∀ n < 4, xReg n < 0x28 := by decide
  have hy : ∀ n < 4, yReg n < 0x28 := by decide
  have hea := (h.calcEa _ h1).calcEa _ fun hC => (eaOk_calcEa _ _).2 (h2 hC)
  have hm1 := hea.pmMove (inst.getLsbD 15) .X (d.calcEa (pm8Ea inst).1).1 false
    (hx _ (field_lt inst 18 2))
  have hm2 := hm1.effect.pmMove (inst.getLsbD 22) .Y
    ((d.calcEa (pm8Ea inst).1).2.2.calcEa (pm8Ea inst).2).1 false
    (hy _ (field_lt inst 16 2))
  refine ⟨hm2.effect, fun w hw => ?_⟩
  rcases List.mem_append.1 hw with hw | hw
  · exact hm1.ok w hw
  · exact hm2.ok w hw

end Effect

/-- The effective addresses that a parallel move evaluates. -/
def pmEas (inst : U32) : List ℕ :=
  match field inst 20 4 with
  | 0 | 1 => [field inst 8 6]
  | 2 => if field inst 8 16 ≠ 0x2000 ∧ inst >>> 8 &&& 0xffe0 = 0x2040 then [field inst 8 5] else []
  | 3 => []
  | 4 | 5 | 6 | 7 => if inst.getLsbD 14 then [field inst 8 6] else []
  | _ => [(pm8Ea inst).1, (pm8Ea inst).2]

/-- A parallel move from register to register. -/
def IsRegMove (inst : U32) : Prop :=
  field inst 20 4 = 2 ∧ field inst 8 16 ≠ 0x2000 ∧ inst >>> 8 &&& 0xffe0 ≠ 0x2040 ∧
    inst >>> 8 &&& 0xfc00 = 0x2000
deriving Decidable

/-- **Parallel moves.** -/
theorem Effect.parmoveRead (h : Effect T C d₀ d) (inst : U32)
    (hok : C → ∀ ea ∈ pmEas inst, d.EaOk ea)
    (hmove : C → IsRegMove inst → d.MoveOk inst) : Reads T C d₀ (d.parmoveRead inst) := by
  unfold pmEas at hok
  unfold Dsp.parmoveRead
  split
  · rename_i he
    exact h.pm0 inst fun hC => hok hC _ (by simp [he])
  · rename_i he
    exact h.pm1 inst fun hC => hok hC _ (by simp [he])
  · rename_i he
    refine h.pm2 inst (fun hC h0 h1 => hok hC _ ?_) fun hC h0 h1 h2 => hmove hC ⟨he, h0, h1, h2⟩
    simp only [he]
    rw [if_pos ⟨h0, h1⟩]
    exact mem_singleton_self _
  · exact h.pm3 inst
  · rename_i he
    exact h.pm4 inst fun hC h14 => hok hC _ (by simp [he, h14])
  · rename_i he
    exact h.pm5 inst fun hC h14 => hok hC _ (by simp [he, h14])
  · rename_i he
    exact h.pm5 inst fun hC h14 => hok hC _ (by simp [he, h14])
  · rename_i he
    exact h.pm5 inst fun hC h14 => hok hC _ (by simp [he, h14])
  · split at hok
    all_goals first
      | contradiction
      | exact h.pm8 inst (fun hC => hok hC _ (by simp)) (fun hC => hok hC _ (by simp))

end Aranym.Dsp
