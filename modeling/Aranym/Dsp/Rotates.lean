/-
  `ROL` and `ROR` of the DSP.

  The two instructions of the DSP56001 rotate the 25 bits of a register and `C`.
  `dsp_rol` and `dsp_ror` rotate the 24 bits of the register and copy the bit that
  comes around to `C`: the old `C` is lost.
-/
import Aranym.Dsp.Accumulators

namespace Aranym.Dsp

open Lib BitVec Function

variable {d : Dsp} {i j v : U32} {r : ℕ}

/-! ## The pair of register and carry -/

/-- A register of 24 bits, and `C`. -/
def pair (d : Dsp) (r : ℕ) : BitVec 24 × Bool := ((d.reg r).setWidth 24, d.carry)

/-- `dsp_rol` on the pair. -/
def pairRol (p : BitVec 24 × Bool) : BitVec 24 × Bool := (p.1.rotateLeft 1, p.1.msb)

/-- `dsp_ror` on the pair. -/
def pairRor (p : BitVec 24 × Bool) : BitVec 24 × Bool := (p.1.rotateRight 1, p.1.getLsbD 0)

theorem midOf_ne_sr (inst : U32) : midOf inst ≠ regSR := by
  have hlt : destOf inst < 2 := Nat.mod_lt _ (by decide)
  simp only [midOf, regA1, regSR]
  omega

theorem reg_rotate (d : Dsp) (inst newcarry value : U32) :
    (d.rotate inst newcarry value).reg (midOf inst) = value &&& 0xffffff := by
  rw [rotate, reg_updateSr (midOf_ne_sr inst), reg_setReg_self]

theorem carry_rotate (d : Dsp) (inst newcarry value : U32) :
    (d.rotate inst newcarry value).carry = newcarry.getLsbD 0 := by
  -- `N` and `Z` are bits 3 and 2
  have hflags : ∀ x : U32, (flags24 x).getLsbD 0 = false := by
    intro x
    unfold flags24
    split_ifs <;> simp
  rw [carry, rotate, getLsbD_updateSr, getLsbD_or, hflags]
  simp

theorem fits_and_mask24 (v : U32) : Fits 24 (v &&& 0xffffff) := fits_and_right (by decide)

theorem fits_rol (d : Dsp) (inst : U32) : Fits 24 ((d.rol inst).reg (midOf inst)) := by
  rw [rol, reg_rotate]
  exact fits_and_mask24 _

theorem fits_ror (d : Dsp) (inst : U32) : Fits 24 ((d.ror inst).reg (midOf inst)) := by
  rw [ror, reg_rotate]
  exact fits_and_mask24 _

/-! ## Words -/

theorem getLsbD_bitAt (v : U32) (n k : ℕ) :
    (bitAt v n).getLsbD k = (decide (k = 0) && v.getLsbD n) := by
  rw [bitAt, getLsbD_and, getLsbD_ushiftRight, show (1 : U32) = 1#32 from rfl, getLsbD_one]
  cases k <;> simp

theorem setWidth_rol (v : U32) :
    (v <<< 1 ||| bitAt v 23).setWidth 24 = (v.setWidth 24).rotateLeft 1 := by
  refine eq_of_getLsbD_eq fun k hk => ?_
  rw [getLsbD_rotateLeft_one _ hk, getLsbD_setWidth, getLsbD_setWidth, getLsbD_or,
    getLsbD_shiftLeft, getLsbD_bitAt]
  by_cases h0 : k = 0
  · subst h0
    simp
  · have hmod : (k + (24 - 1)) % 24 = k - 1 := by omega
    simp [hmod, h0, hk, show k < 32 by omega, show k - 1 < 24 by omega]

theorem setWidth_ror (h : Fits 24 v) :
    (v >>> 1 ||| (v &&& 1) <<< 23).setWidth 24 = (v.setWidth 24).rotateRight 1 := by
  refine eq_of_getLsbD_eq fun k hk => ?_
  have h24 : v.getLsbD 24 = false := getLsbD_of_fits h le_rfl
  rw [getLsbD_rotateRight_one _ hk, getLsbD_setWidth, getLsbD_setWidth, getLsbD_or,
    getLsbD_ushiftRight, getLsbD_shiftLeft, getLsbD_and]
  by_cases hl : k = 23
  · subst hl
    rw [h24, Bool.false_or]
    simp
  · have hmod : (k + 1) % 24 = k + 1 := by omega
    simp [hmod, hk, show k < 23 by omega, show k + 1 < 24 by omega, Nat.add_comm]

/-! ## The handlers on the pair -/

theorem pair_rol (d : Dsp) (i : U32) : pair (d.rol i) (midOf i) = pairRol (pair d (midOf i)) := by
  refine Prod.ext ?_ ?_
  · show ((d.rol i).reg (midOf i)).setWidth 24 = _
    rw [rol, reg_rotate, setWidth_and_low (n := 24) _ rfl, setWidth_rol]
    rfl
  · show (d.rol i).carry = ((d.reg (midOf i)).setWidth 24).msb
    rw [rol, carry_rotate, getLsbD_bitAt, msb_setWidth]
    simp

theorem pair_ror (h : Fits 24 (d.reg (midOf i))) :
    pair (d.ror i) (midOf i) = pairRor (pair d (midOf i)) := by
  refine Prod.ext ?_ ?_
  · show ((d.ror i).reg (midOf i)).setWidth 24 = _
    rw [ror, reg_rotate, setWidth_and_low (n := 24) _ rfl, setWidth_ror h]
    rfl
  · show (d.ror i).carry = ((d.reg (midOf i)).setWidth 24).getLsbD 0
    rw [ror, carry_rotate, getLsbD_and, getLsbD_setWidth]
    simp

theorem iterate_rol (d : Dsp) (i : U32) (k : ℕ) :
    pair ((rol · i)^[k] d) (midOf i) = pairRol^[k] (pair d (midOf i)) := by
  induction k with
  | zero => rfl
  | succ k ih => rw [iterate_succ_apply', iterate_succ_apply', pair_rol, ih]

theorem fits_iterate_rol (h : Fits 24 (d.reg (midOf i))) (k : ℕ) :
    Fits 24 (((rol · i)^[k] d).reg (midOf i)) := by
  cases k with
  | zero => exact h
  | succ k =>
    rw [iterate_succ_apply']
    exact fits_rol _ _

theorem iterate_pairRol (p : BitVec 24 × Bool) (k : ℕ) :
    (pairRol^[k] p).1 = (BitVec.rotateLeft · 1)^[k] p.1 := by
  induction k with
  | zero => rfl
  | succ k ih =>
    rw [iterate_succ_apply', iterate_succ_apply', ← ih]
    rfl

/-- After 24 rotations the register is back, and the last one was the first one again. -/
theorem pairRol_twenty_five (p : BitVec 24 × Bool) : pairRol^[25] p = pairRol p := by
  have hback : (pairRol^[24] p).1 = p.1 := (iterate_pairRol p 24).trans (rotateLeft_period p.1)
  rw [iterate_succ_apply', pairRol, hback]
  rfl

/-! ## What is lost -/

theorem pair_eq_iff {d' : Dsp} (h : Fits 24 (d.reg r)) (h' : Fits 24 (d'.reg r)) :
    pair d' r = pair d r ↔ d'.reg r = d.reg r ∧ d'.carry = d.carry := by
  have hlt : (d.reg r).toNat < 2 ^ 24 := h
  have hlt' : (d'.reg r).toNat < 2 ^ 24 := h'
  have hreg : (d'.reg r).setWidth 24 = (d.reg r).setWidth 24 ↔ d'.reg r = d.reg r := by
    rw [← toNat_inj, ← toNat_inj, toNat_setWidth, toNat_setWidth, Nat.mod_eq_of_lt hlt,
      Nat.mod_eq_of_lt hlt']
  rw [pair, pair, Prod.mk.injEq, hreg]

/-- The register and `C` are as before. -/
def Restored (d d' : Dsp) (r : ℕ) : Prop := d'.reg r = d.reg r ∧ d'.carry = d.carry
deriving Decidable

theorem ror_rol_restores_iff (hij : midOf j = midOf i) (h : Fits 24 (d.reg (midOf i))) :
    Restored d ((d.rol i).ror j) (midOf i) ↔ d.carry = (d.reg (midOf i)).getLsbD 23 := by
  have hrol : Fits 24 ((d.rol i).reg (midOf j)) := hij ▸ fits_rol d i
  have hpair : pair ((d.rol i).ror j) (midOf i) =
      (((d.reg (midOf i)).setWidth 24), (d.reg (midOf i)).getLsbD 23) := by
    rw [← hij, pair_ror hrol, hij, pair_rol]
    refine Prod.ext (rotateRight_rotateLeft_one _) ?_
    show (BitVec.rotateLeft _ 1).getLsbD 0 = _
    rw [getLsbD_rotateLeft_one _ (by decide), pair, getLsbD_setWidth]
    simp
  rw [Restored, ← pair_eq_iff h (hij ▸ fits_ror _ j), hpair, pair, Prod.mk.injEq]
  simp [eq_comm]

theorem rol_ror_restores_iff (hij : midOf j = midOf i) (h : Fits 24 (d.reg (midOf i))) :
    Restored d ((d.ror j).rol i) (midOf i) ↔ d.carry = (d.reg (midOf i)).getLsbD 0 := by
  have hpair : pair ((d.ror j).rol i) (midOf i) =
      (((d.reg (midOf i)).setWidth 24), (d.reg (midOf i)).getLsbD 0) := by
    rw [pair_rol, ← hij, pair_ror (hij.symm ▸ h)]
    refine Prod.ext (rotateLeft_rotateRight_one _) ?_
    rw [pairRol, pairRor]
    rw [msb_eq_getLsbD_last, getLsbD_rotateRight_one _ (by decide), pair, getLsbD_setWidth]
    simp
  rw [Restored, ← pair_eq_iff h (fits_rol _ i), hpair, pair, Prod.mk.injEq]
  simp [eq_comm]

theorem pairRol_eq_self_iff (p : BitVec 24 × Bool) :
    pairRol p = p ↔ p = (0, false) ∨ p = (BitVec.allOnes 24, true) := by
  obtain ⟨x, c⟩ := p
  rw [pairRol, Prod.mk.injEq, rotateLeft_one_eq_self_iff]
  dsimp only
  constructor
  · rintro ⟨rfl | rfl, hc⟩
    · exact .inl (Prod.ext rfl (hc.symm.trans msb_zero))
    · exact .inr (Prod.ext rfl (hc.symm.trans (msb_allOnes (by decide))))
  · rintro (h | h)
    all_goals
      obtain ⟨rfl, rfl⟩ := Prod.mk.inj h
      exact ⟨by simp, rfl⟩

theorem iterate_rol_restores_iff (h : Fits 24 (d.reg (midOf i))) :
    Restored d ((rol · i)^[25] d) (midOf i) ↔ d.reg (midOf i) = 0 ∧ d.carry = false ∨
      d.reg (midOf i) = 0xffffff ∧ d.carry = true := by
  have hlt : (d.reg (midOf i)).toNat < 2 ^ 24 := h
  have hset : ∀ v : U32, v.toNat < 2 ^ 24 →
      ((d.reg (midOf i)).setWidth 24 = v.setWidth 24 ↔ d.reg (midOf i) = v) := by
    intro v hv
    rw [← toNat_inj, ← toNat_inj, toNat_setWidth, toNat_setWidth, Nat.mod_eq_of_lt hlt,
      Nat.mod_eq_of_lt hv]
  rw [Restored, ← pair_eq_iff h (fits_iterate_rol h 25), iterate_rol, pairRol_twenty_five,
    pairRol_eq_self_iff, pair,
    Prod.mk.injEq, Prod.mk.injEq, ← hset 0 (by decide), ← hset 0xffffff (by decide)]
  rfl

/-- **Rotations without a loss.**  `ROR` after `ROL` and `ROL` after `ROR` always restore the
    register, and they restore `C` if it is the bit that comes around; 25 rotations restore both
    only if all 25 bits are equal. -/
theorem rotates_lossless_iff (d : Dsp) (i j : U32) (hij : midOf j = midOf i)
    (h : Fits 24 (d.reg (midOf i))) :
    (Restored d ((d.rol i).ror j) (midOf i) ↔ d.carry = (d.reg (midOf i)).getLsbD 23) ∧
    (Restored d ((d.ror j).rol i) (midOf i) ↔ d.carry = (d.reg (midOf i)).getLsbD 0) ∧
    (Restored d ((rol · i)^[25] d) (midOf i) ↔ d.reg (midOf i) = 0 ∧ d.carry = false ∨
      d.reg (midOf i) = 0xffffff ∧ d.carry = true) :=
  ⟨ror_rol_restores_iff hij h, rol_ror_restores_iff hij h, iterate_rol_restores_iff h⟩

/-- All bits of `A1` and `C` are set: `ROL A` and `ROR A` lose nothing. -/
theorem rotates_all_ones : Restored (withRegs [(regA1, 0xffffff), (regSR, 1)])
      (((withRegs [(regA1, 0xffffff), (regSR, 1)]).rol 0x37).ror 0x27) regA1 ∧
    Restored (withRegs [(regA1, 0xffffff), (regSR, 1)])
      ((rol · 0x37)^[25] (withRegs [(regA1, 0xffffff), (regSR, 1)])) regA1 := by
  have h := rotates_lossless_iff (withRegs [(regA1, 0xffffff), (regSR, 1)]) 0x37 0x27
    (by decide) (by decide)
  exact ⟨h.1.2 (by decide), h.2.2.2 (by decide)⟩

/-- With `A1` = 0, a set `C` is lost by `ROL A` and `ROR A` in both orders; with `A1` = 1 and `C`
    clear, 25 times `ROL A` make 2 of it. -/
theorem rotates_lose_carry :
    ¬ Restored (withRegs [(regSR, 1)]) (((withRegs [(regSR, 1)]).rol 0x37).ror 0x27) regA1 ∧
    ¬ Restored (withRegs [(regSR, 1)]) (((withRegs [(regSR, 1)]).ror 0x27).rol 0x37) regA1 ∧
    ((rol · 0x37)^[25] (withRegs [(regA1, 1)])).reg regA1 = 2 := by
  refine ⟨by decide +kernel, by decide +kernel, ?_⟩
  decide +kernel

end Aranym.Dsp
