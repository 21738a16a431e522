/-
  Products and rounding of the DSP.
-/
import Aranym.Dsp.Accumulators

namespace Aranym.Dsp

open Lib
open BitVec hiding not_not

/-! ## Products -/

theorem toNat_mul_halves (a b : U32) :
    ((a &&& 0xfff#32) * (b &&& 0xfff#32)).toNat = a.toNat % 2 ^ 12 * (b.toNat % 2 ^ 12) := by
  have hfits : ∀ v : U32, Fits 12 (v &&& 0xfff#32) := fun v => fits_and_right (by decide)
  rw [toNat_mul_of_fits (hfits a) (hfits b) (by decide), toNat_and_low (n := 12) _ rfl,
    toNat_and_low (n := 12) _ rfl]

theorem toNat_carry (v : U32) : (v >>> 24 &&& 0xff).toNat = v.toNat / 2 ^ 24 := by
  rw [toNat_and_low (n := 8) _ rfl, toNat_ushiftRight, Nat.shiftRight_eq_div_pow]
  omega

variable {v : U32}

/-- A limb without a carry is left as it is, which is what the mask would do. -/
theorem and_of_no_carry (h : v >>> 24 &&& 0xff = 0) : v &&& 0xffffff = v := by
  have hc := toNat_carry v
  rw [h] at hc
  refine BitVec.eq_of_toNat_eq ?_
  rw [toNat_and_low (n := 24) _ rfl, Nat.mod_eq_of_lt]
  change 0 = _ at hc
  omega

/-- `dest[2]` and `dest[1]` of `dsp_mul56` before the carries are added. -/
def lowParts (s₁ s₂ : U32) : U32 :=
  (s₁ &&& 0xfff#32) * (s₂ &&& 0xfff#32) +
    ((s₁ >>> 12 &&& 0xfff#32) * (s₂ &&& 0xfff#32) &&& 0xfff#32) <<< 12 +
    ((s₁ &&& 0xfff#32) * (s₂ >>> 12 &&& 0xfff#32) &&& 0xfff#32) <<< 12

/-- The parts in the middle. -/
def midParts (s₁ s₂ : U32) : U32 :=
  (((s₁ >>> 12 &&& 0xfff#32) * (s₂ &&& 0xfff#32)) >>> 12 &&& 0xfff#32) +
    (((s₁ &&& 0xfff#32) * (s₂ >>> 12 &&& 0xfff#32)) >>> 12 &&& 0xfff#32) +
    (s₁ >>> 12 &&& 0xfff#32) * (s₂ >>> 12 &&& 0xfff#32)

variable {s₁ s₂ : U32}

theorem mulParts_eq {lo mid : U32} (hlo : lo = lowParts s₁ s₂) (hmid : mid = midParts s₁ s₂) :
    mulParts s₁ s₂ = ⟨(mid + (lo >>> 24 &&& 0xff)) >>> 24 &&& 0xff,
      (mid + (lo >>> 24 &&& 0xff)) &&& 0xffffff,
      lo &&& 0xffffff⟩ := by
  unfold lowParts at hlo
  unfold midParts at hmid
  unfold mulParts
  dsimp only
  rw [← hlo, ← hmid]
  by_cases hc : lo >>> 24 &&& 0xff = 0
  · have hzero : mid + 0 = mid := BitVec.add_zero mid
    rw [hc, if_neg (not_not.2 rfl), and_of_no_carry hc, hzero]
    by_cases hc' : mid >>> 24 &&& 0xff = 0
    · rw [hc', if_neg (not_not.2 rfl), and_of_no_carry hc']
    · rw [if_pos hc']
  · rw [if_pos hc]
    by_cases hc' : (mid + (lo >>> 24 &&& 0xff)) >>> 24 &&& 0xff = 0
    · rw [hc', if_neg (not_not.2 rfl), and_of_no_carry hc']
    · rw [if_pos hc']

theorem toNat_lowParts (s₁ s₂ : U32) : (lowParts s₁ s₂).toNat =
    s₁.toNat % 2 ^ 12 * (s₂.toNat % 2 ^ 12) +
      s₁.toNat / 2 ^ 12 % 2 ^ 12 * (s₂.toNat % 2 ^ 12) % 2 ^ 12 * 2 ^ 12 +
      s₁.toNat % 2 ^ 12 * (s₂.toNat / 2 ^ 12 % 2 ^ 12) % 2 ^ 12 * 2 ^ 12 := by
  have hlow : ∀ v : U32, ((v &&& 0xfff#32) <<< 12).toNat = v.toNat % 2 ^ 12 * 2 ^ 12 := by
    intro v
    rw [toNat_shiftLeft, toNat_and_low (n := 12) _ rfl, Nat.shiftLeft_eq]
    omega
  have hp0 := toNat_mul_halves s₁ s₂
  have hlt := Nat.mul_lt_mul'' (Nat.mod_lt s₁.toNat (by decide : 0 < 2 ^ 12))
    (Nat.mod_lt s₂.toNat (by decide : 0 < 2 ^ 12))
  rw [lowParts, toNat_add, toNat_add, hlow, hlow, hp0, toNat_mul_halves, toNat_mul_halves,
    toNat_ushiftRight, toNat_ushiftRight, Nat.shiftRight_eq_div_pow, Nat.shiftRight_eq_div_pow]
  omega

theorem toNat_midParts (s₁ s₂ : U32) : (midParts s₁ s₂).toNat =
    s₁.toNat / 2 ^ 12 % 2 ^ 12 * (s₂.toNat % 2 ^ 12) / 2 ^ 12 +
      s₁.toNat % 2 ^ 12 * (s₂.toNat / 2 ^ 12 % 2 ^ 12) / 2 ^ 12 +
      s₁.toNat / 2 ^ 12 % 2 ^ 12 * (s₂.toNat / 2 ^ 12 % 2 ^ 12) := by
  have hhigh : ∀ v : U32, v.toNat < 2 ^ 24 → (v >>> 12 &&& 0xfff#32).toNat = v.toNat / 2 ^ 12 := by
    intro v hv
    rw [toNat_and_low (n := 12) _ rfl, toNat_ushiftRight, Nat.shiftRight_eq_div_pow]
    omega
  have hlt : ∀ a b : ℕ, a % 2 ^ 12 * (b % 2 ^ 12) < 2 ^ 12 * 2 ^ 12 := fun a b =>
    Nat.mul_lt_mul'' (Nat.mod_lt a (by decide)) (Nat.mod_lt b (by decide))
  have hp1 := toNat_mul_halves (s₁ >>> 12) s₂
  have hp2 := toNat_mul_halves s₁ (s₂ >>> 12)
  have hp3 := toNat_mul_halves (s₁ >>> 12) (s₂ >>> 12)
  rw [toNat_ushiftRight, Nat.shiftRight_eq_div_pow] at hp1
  rw [toNat_ushiftRight, Nat.shiftRight_eq_div_pow] at hp2
  rw [toNat_ushiftRight, toNat_ushiftRight, Nat.shiftRight_eq_div_pow,
    Nat.shiftRight_eq_div_pow] at hp3
  have h1 := hlt (s₁.toNat / 2 ^ 12) s₂.toNat
  have h2 := hlt s₁.toNat (s₂.toNat / 2 ^ 12)
  have h3 := hlt (s₁.toNat / 2 ^ 12) (s₂.toNat / 2 ^ 12)
  rw [midParts, toNat_add, toNat_add, hhigh _ (by omega), hhigh _ (by omega), hp1, hp2, hp3]
  omega

theorem toNat_mulParts (h1 : Fits 24 s₁) (h2 : Fits 24 s₂) :
    (mulParts s₁ s₂).Within ∧ (mulParts s₁ s₂).bits.toNat = s₁.toNat * s₂.toNat := by
  have hwithin : (mulParts s₁ s₂).Within := by
    rw [mulParts_eq rfl rfl]
    exact Limbs.within_masked
  have hlow := toNat_lowParts s₁ s₂
  have hmid := toNat_midParts s₁ s₂
  refine ⟨hwithin, ?_⟩
  rw [hwithin.toNat_bits, mulParts_eq rfl rfl]
  rw [toNat_carry, toNat_and_low (n := 24) _ rfl, toNat_and_low (n := 24) _ rfl, toNat_add,
    toNat_carry, hlow, hmid]
  -- the factors in base `2 ^ 12`
  have hs1 : s₁.toNat = s₁.toNat / 2 ^ 12 % 2 ^ 12 * 2 ^ 12 + s₁.toNat % 2 ^ 12 := by
    have : s₁.toNat < 2 ^ 24 := h1
    omega
  have hs2 : s₂.toNat = s₂.toNat / 2 ^ 12 % 2 ^ 12 * 2 ^ 12 + s₂.toNat % 2 ^ 12 := by
    have : s₂.toNat < 2 ^ 24 := h2
    omega
  have ha1 : s₁.toNat / 2 ^ 12 % 2 ^ 12 < 2 ^ 12 := Nat.mod_lt _ (by decide)
  have ha0 : s₁.toNat % 2 ^ 12 < 2 ^ 12 := Nat.mod_lt _ (by decide)
  have hb1 : s₂.toNat / 2 ^ 12 % 2 ^ 12 < 2 ^ 12 := Nat.mod_lt _ (by decide)
  have hb0 : s₂.toNat % 2 ^ 12 < 2 ^ 12 := Nat.mod_lt _ (by decide)
  generalize s₁.toNat / 2 ^ 12 % 2 ^ 12 = a₁ at *
  generalize s₁.toNat % 2 ^ 12 = a₀ at *
  generalize s₂.toNat / 2 ^ 12 % 2 ^ 12 = b₁ at *
  generalize s₂.toNat % 2 ^ 12 = b₀ at *
  have hprod : (a₁ * 2 ^ 12 + a₀) * (b₁ * 2 ^ 12 + b₀) =
      a₁ * b₁ * 2 ^ 24 + a₁ * b₀ * 2 ^ 12 + a₀ * b₁ * 2 ^ 12 + a₀ * b₀ := by ring
  have h11 := Nat.mul_lt_mul'' ha1 hb1
  have h10 := Nat.mul_lt_mul'' ha1 hb0
  have h01 := Nat.mul_lt_mul'' ha0 hb1
  have h00 := Nat.mul_lt_mul'' ha0 hb0
  rw [hs1, hs2, hprod]
  generalize a₁ * b₁ = p₃ at *
  generalize a₁ * b₀ = p₁ at *
  generalize a₀ * b₁ = p₂ at *
  generalize a₀ * b₀ = p₀ at *
  omega

/-- The number of a 24-bit register. -/
def signed24 (v : U32) : ℤ := (v.setWidth 24).toInt

theorem signed24_eq (h : Fits 24 v) :
    signed24 v = if v.getLsbD 23 then (v.toNat : ℤ) - 2 ^ 24 else (v.toNat : ℤ) := by
  have hv : v.toNat < 2 ^ 24 := h
  rw [signed24, toInt_eq_toNat_cond, toNat_setWidth, Nat.mod_eq_of_lt hv, getLsbD_eq_decide]
  simp only [decide_eq_true_eq]
  split_ifs <;> omega

theorem magnitude_eq (h : Fits 24 v) : Fits 24 (magnitude v).1 ∧
    signed24 v = if (magnitude v).2 then -((magnitude v).1.toNat : ℤ)
      else ((magnitude v).1.toNat : ℤ) := by
  have hv : v.toNat < 2 ^ 24 := h
  rw [signed24_eq h, magnitude]
  by_cases hneg : v.getLsbD 23 = true
  · have hlow : 2 ^ 23 ≤ v.toNat := by
      rw [getLsbD_eq_decide, decide_eq_true_eq] at hneg
      omega
    have hlit : (0x1000000 : U32).toNat = 2 ^ 24 := rfl
    have hmag : ((0x1000000 : U32) - (v &&& 0xffffff)).toNat = 2 ^ 24 - v.toNat := by
      rw [toNat_sub, toNat_and_low (n := 24) _ rfl, hlit]
      omega
    rw [if_pos hneg, if_pos hneg, if_pos rfl]
    refine ⟨?_, ?_⟩
    · rw [Fits, hmag]
      omega
    · rw [hmag]
      omega
  · rw [if_neg hneg, if_neg hneg, if_neg Bool.false_ne_true]
    exact ⟨h, rfl⟩

/-- **Products**: twice the product of the two numbers. -/
theorem represents_mul56 (h1 : Fits 24 s₁) (h2 : Fits 24 s₂) :
    (mul56 s₁ s₂).Represents (2 * (signed24 s₁ * signed24 s₂)) := by
  obtain ⟨hfits1, hval1⟩ := magnitude_eq h1
  obtain ⟨hfits2, hval2⟩ := magnitude_eq h2
  obtain ⟨hwithin, hprod⟩ := toNat_mulParts hfits1 hfits2
  have hparts : (mulParts (magnitude s₁).1 (magnitude s₂).1).Represents
      (((magnitude s₁).1.toNat : ℤ) * (magnitude s₂).1.toNat) := by
    refine ⟨hwithin, ?_⟩
    rw [← Nat.cast_mul, ofInt_natCast, ← hprod, ofNat_toNat, setWidth_eq]
  have hshift := represents_asl56 hparts
  have hneg := represents_sub56 hshift represents_zero
  rw [hval1, hval2]
  unfold mul56
  dsimp only
  cases (magnitude s₁).2 <;> cases (magnitude s₂).2
  · exact hshift
  · simpa using hneg
  · simpa using hneg
  · simpa using hshift

section Mac

variable {d : Dsp} {inst : U32}

/-- The factors of `mpy` and `mac`. -/
def factors (d : Dsp) (inst : U32) : U32 × U32 :=
  (d.reg (registersMpy (field inst 4 3)).1, d.reg (registersMpy (field inst 4 3)).2)

/-- The product that `mac` adds. -/
def signedProduct (d : Dsp) (inst : U32) : ℤ :=
  let p := 2 * (signed24 (d.factors inst).1 * signed24 (d.factors inst).2)
  if inst.getLsbD 2 then -p else p

/-- The factors are of 24 bits, and the accumulator of 56. -/
structure MacOperands (d : Dsp) (inst : U32) : Prop where
  first : Fits 24 (d.factors inst).1
  second : Fits 24 (d.factors inst).2
  dest : (d.accu (destOf inst)).Within

theorem represents_product (h : MacOperands d inst) :
    (d.product inst).Represents (d.signedProduct inst) := by
  have hmul := represents_mul56 h.first h.second
  have hneg := represents_sub56 hmul represents_zero
  unfold product signedProduct
  split_ifs
  · rw [Int.zero_sub] at hneg
    exact hneg
  · exact hmul

theorem signedProduct_bounds (d : Dsp) (inst : U32) :
    -2 ^ 47 ≤ d.signedProduct inst ∧ d.signedProduct inst ≤ 2 ^ 47 := by
  have hbound : ∀ v : U32, |signed24 v| ≤ 2 ^ 23 := fun v => by
    have hlo := (v.setWidth 24).le_toInt
    have hhi := (v.setWidth 24).toInt_lt
    exact abs_le.2 ⟨hlo, hhi.le⟩
  have hmul :=
    mul_le_mul (hbound (d.factors inst).1) (hbound (d.factors inst).2) (abs_nonneg _) (by decide)
  rw [← abs_mul] at hmul
  obtain ⟨hlo, hhi⟩ := abs_le.1 hmul
  unfold signedProduct
  dsimp only
  split_ifs <;> omega

theorem toInt_product (h : MacOperands d inst) :
    (d.product inst).bits.toInt = d.signedProduct inst := by
  obtain ⟨hlo, hhi⟩ := signedProduct_bounds d inst
  rw [(represents_product h).bits]
  exact toInt_ofInt_of_not_outOf (by decide) (by unfold OutOf; omega)

/-- `MAC` with either sign: the sum modulo `2 ^ 56`, and `V` if it is no number of 56 bits. -/
structure MacExact (d : Dsp) (inst : U32) : Prop where
  sum : ((d.mac inst).accu (destOf inst)).Represents
    ((d.destBits inst).toInt + d.signedProduct inst)
  overflow : (d.mac inst).overflow = true ↔
    OutOf 56 ((d.destBits inst).toInt + d.signedProduct inst)

theorem mac_exact (h : MacOperands d inst) : MacExact d inst := by
  have hprod := represents_product h
  constructor
  · unfold mac
    rw [accu_finishMul (destOf_lt inst)]
    exact represents_add56 hprod h.dest.represents
  · have hflag : ∀ s : U32, (s &&& 0xfe).getLsbD 1 = s.getLsbD 1 := fun s => by
      rw [getLsbD_and]
      exact Bool.and_true _
    unfold mac
    rw [overflow_finishMul, hflag, flags_add56 hprod.within h.dest, (getLsbD_statusBits _ _).2,
      saddOverflow_iff, toInt_product h]
    rfl

/-- **Multiplication.**  `dsp_mul56` gives twice the product of any two numbers of 24 bits, and
    `MAC` adds or subtracts it. -/
theorem multiplication (h : MacOperands d inst) :
    (∀ x y : BitVec 24,
      (mul56 (x.setWidth 32) (y.setWidth 32)).Represents (2 * (x.toInt * y.toInt))) ∧
      MacExact d inst := by
  refine ⟨fun x y => ?_, mac_exact h⟩
  have hfits : ∀ v : BitVec 24, Fits 24 (v.setWidth 32) := fun v => by
    change (v.setWidth 32).toNat < 2 ^ 24
    rw [toNat_setWidth]
    omega
  have hsigned : ∀ v : BitVec 24, signed24 (v.setWidth 32) = v.toInt := fun v => by
    rw [signed24, setWidth_setWidth_of_le _ (by decide), setWidth_eq]
  have hmul := represents_mul56 (hfits x) (hfits y)
  rwa [hsigned, hsigned] at hmul

/-- `MAC X0,X0,A` with the least number of 24 bits. -/
theorem multiplication_least : MacExact (withRegs [(regX0, 0x800000)]) 0x82 :=
  (multiplication ⟨by decide, by decide, by decide⟩).2

end Mac

/-! ## Rounding -/

section Rounding

variable {d : Dsp} {x y : Limbs}

/-- `y` is, modulo `2 ^ 56`, the multiple of `u` nearest to `x`. -/
def RoundsTo (u : ℤ) (x y : Limbs) : Prop :=
  ∃ m, NearestEven u x.bits.toInt m ∧ y.Represents (m * u)

/-- `y` is `r` without the bits up to bit `k`; if these are 0, without the next one either. -/
structure Cuts (k : ℕ) (r y : Limbs) : Prop where
  within : y.Within
  toNat_bits : y.bits.toNat = if r.bits.toNat % 2 ^ (k + 1) =
    0 then r.bits.toNat / 2 ^ (k + 2) * 2 ^ (k + 2)
    else r.bits.toNat / 2 ^ (k + 1) * 2 ^ (k + 1)

theorem roundsTo_of_half {k : ℕ} (hk : k + 2 ≤ 56) {half : Limbs} (hhalf : half.Represents (2 ^ k))
    (hx : x.Within) (hcut : Cuts k (add56 half x).1 y) : RoundsTo (2 ^ (k + 1)) x y := by
  have hsum := represents_add56 hhalf hx.represents
  obtain ⟨m, hm, hz⟩ := nearestEven_ofInt hk hsum.bits hcut.toNat_bits
  exact ⟨m, hm, hcut.within, hz⟩

theorem cuts_lo_mid (h : x.Within) : Cuts 24 x
    ⟨x.hi, (if x.lo = 0 ∧
      x.mid &&& 1 = 0 then x.mid &&& (0xffffff - 3) else x.mid) &&& 0xfffffe, 0⟩ := by
  obtain ⟨-, hmid, hlo⟩ := h.bounds
  have hwithin : ∀ v : U32, Limbs.Within ⟨x.hi, v &&& 0xfffffe, 0⟩ :=
    fun v => ⟨h.hi, fits_and_right (by decide), fits_zero⟩
  refine ⟨hwithin _, ?_⟩
  rw [(hwithin _).toNat_bits, h.toNat_bits]
  have htie : x.lo = 0 ∧ x.mid &&& 1 = 0 ↔ x.lo.toNat = 0 ∧ x.mid.toNat % 2 = 0 := by
    rw [← toNat_inj, ← toNat_inj, toNat_and_low (n := 1) _ rfl]
    rfl
  by_cases hcase : x.lo = 0 ∧ x.mid &&& 1 = 0
  · have hfits : Fits 24 (x.mid &&& (0xffffff - 3)) := fits_and_left h.mid
    obtain ⟨hlo', hmid'⟩ := htie.1 hcase
    rw [if_pos hcase, toNat_and_high (n := 24) (k := 1) hfits rfl,
      toNat_and_high (n := 24) (k := 2) h.mid rfl, if_pos (by omega)]
    change x.hi.toNat * 2 ^ 48 + _ + 0 = _
    omega
  · have hcase' := mt htie.2 hcase
    rw [if_neg hcase, toNat_and_high (n := 24) (k := 1) h.mid rfl, if_neg (by omega)]
    change x.hi.toNat * 2 ^ 48 + _ + 0 = _
    omega

theorem cuts_lo_part (h : x.Within) : Cuts 22 x
    ⟨x.hi, x.mid, (if x.lo &&& 0x7fffff = 0 then 0 else x.lo) &&& 0x800000⟩ := by
  obtain ⟨-, hmid, hlo⟩ := h.bounds
  have hwithin : ∀ v : U32, Limbs.Within ⟨x.hi, x.mid, v &&& 0x800000⟩ :=
    fun v => ⟨h.hi, h.mid, fits_and_right (by decide)⟩
  refine ⟨hwithin _, ?_⟩
  rw [(hwithin _).toNat_bits, h.toNat_bits]
  have htie : x.lo &&& 0x7fffff = 0 ↔ x.lo.toNat % 2 ^ 23 = 0 := by
    rw [← toNat_inj, toNat_and_low (n := 23) _ rfl]
    rfl
  by_cases hcase : x.lo &&& 0x7fffff = 0
  · have hlo' := htie.1 hcase
    rw [if_pos hcase, if_pos (by omega)]
    change x.hi.toNat * 2 ^ 48 + x.mid.toNat * 2 ^ 24 + 0 = _
    omega
  · have hlo' := mt htie.2 hcase
    rw [if_neg hcase, toNat_and_high (n := 24) (k := 23) h.lo rfl, if_neg (by omega)]
    dsimp only
    omega

theorem cuts_lo (h : x.Within) :
    Cuts 23 x ⟨x.hi, if x.lo = 0 then x.mid &&& 0xfffffe else x.mid, 0⟩ := by
  obtain ⟨-, hmid, hlo⟩ := h.bounds
  have htie : x.lo = 0 ↔ x.lo.toNat = 0 := by
    rw [← toNat_inj]
    rfl
  by_cases hcase : x.lo = 0
  · have hwithin : Limbs.Within ⟨x.hi, x.mid &&& 0xfffffe, 0⟩ :=
      ⟨h.hi, fits_and_right (by decide), fits_zero⟩
    have hlo' := htie.1 hcase
    rw [if_pos hcase]
    refine ⟨hwithin, ?_⟩
    rw [hwithin.toNat_bits, h.toNat_bits, toNat_and_high (n := 24) (k := 1) h.mid rfl,
      if_pos (by omega)]
    change x.hi.toNat * 2 ^ 48 + _ + 0 = _
    omega
  · have hwithin : Limbs.Within ⟨x.hi, x.mid, 0⟩ := ⟨h.hi, h.mid, fits_zero⟩
    have hlo' := mt htie.2 hcase
    rw [if_neg hcase]
    refine ⟨hwithin, ?_⟩
    rw [hwithin.toNat_bits, h.toNat_bits, if_neg (by omega)]
    change x.hi.toNat * 2 ^ 48 + x.mid.toNat * 2 ^ 24 + 0 = _
    omega

/-- The unit of the scaling mode: bit 10 of `SR` is `S0`, bit 11 is `S1`. -/
def roundUnit (d : Dsp) : ℤ :=
  if (d.reg regSR).getLsbD 10 then 2 ^ 25 else if (d.reg regSR).getLsbD 11 then 2 ^ 23 else 2 ^ 24

/-- **Rounding**, in the reserved mode as with `S0`. -/
theorem rnd56_nearest (hx : x.Within) : RoundsTo d.roundUnit x (d.rnd56 x) := by
  unfold roundUnit rnd56
  by_cases h0 : (d.reg regSR).getLsbD 10 = true
  · rw [if_pos h0, if_pos h0]
    exact roundsTo_of_half (by decide) ⟨by decide, by decide⟩ hx
      (cuts_lo_mid (result_add56 _ x).within)
  · rw [if_neg h0, if_neg h0]
    by_cases h1 : (d.reg regSR).getLsbD 11 = true
    · rw [if_pos h1, if_pos h1]
      exact roundsTo_of_half (by decide) ⟨by decide, by decide⟩ hx
        (cuts_lo_part (result_add56 _ x).within)
    · rw [if_neg h1, if_neg h1]
      exact roundsTo_of_half (by decide) ⟨by decide, by decide⟩ hx
        (cuts_lo (result_add56 _ x).within)

/-- Halfway between 1 and 2, after a reset. -/
theorem rnd56_halfway :
    RoundsTo (roundUnit default) ⟨0, 1, 0x800000⟩ (rnd56 default ⟨0, 1, 0x800000⟩) :=
  rnd56_nearest (by decide)

end Rounding

end Aranym.Dsp
