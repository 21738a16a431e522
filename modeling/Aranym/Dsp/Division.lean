/-
  Division on the DSP: `DIV` once for each bit of the quotient.

  One `DIV` is one step of the division in `Lib.FixedPoint`, with the divisor at
  the bits 47..24, as long as the numbers stay far from 56 bits.
-/
import Aranym.Dsp.Accumulators

namespace Aranym.Dsp

open Lib BitVec

variable {d : Dsp} {inst : U32} {S a c : ℤ} {n : ℕ}

/-- The divisor, the dividend or what is left of it, and the next bit of the quotient. -/
structure Divides (d : Dsp) (inst : U32) (S a c : ℤ) : Prop where
  divisor : ((d.reg (sourceLogical inst)).toNat : ℤ) = S
  within : (d.accu (destOf inst)).Within
  value : d.accuInt (destOf inst) = a
  bit : d.carry.toInt = c

theorem sourceLogical_lt (inst : U32) : sourceLogical inst < regA0 := by
  unfold sourceLogical
  split <;> decide

theorem represents_setLow {x : Limbs} {v : ℤ} (hx : x.Represents (2 * v)) (c : Bool) {bit : U32}
    (hbit : bit.toNat = c.toNat) :
    Limbs.Represents { x with lo := x.lo ||| bit } (2 * v + c.toInt) := by
  obtain ⟨-, -, hlo⟩ := hx.within.bounds
  have hold := hx.within.toNat_bits
  have hc := Bool.toNat_lt c
  have heven : x.lo.toNat % 2 = 0 := by
    have hbits : x.bits.toNat % 2 = 0 := by
      rw [hx.bits, toNat_ofInt]
      omega
    omega
  have hor : (x.lo ||| bit).toNat = x.lo.toNat + c.toNat := by
    have hdouble : x.lo.toNat = (x.lo.toNat / 2) <<< 1 := by
      omega
    rw [toNat_or, hbit, hdouble, Nat.shiftLeft_add_eq_or_of_lt (by omega)]
  have hwithin : Limbs.Within { x with lo := x.lo ||| bit } := by
    refine ⟨hx.within.hi, hx.within.mid, ?_⟩
    rw [Fits, hor]
    omega
  have hone : (BitVec.ofInt 56 c.toInt).toNat = c.toNat := by cases c <;> rfl
  refine ⟨hwithin, BitVec.eq_of_toNat_eq ?_⟩
  rw [ofInt_add, ← hx.bits, toNat_add, hone, hwithin.toNat_bits, hor]
  dsimp only
  omega

theorem represents_source24 {r : ℕ} (hS : (d.reg r).toNat < 2 ^ 23) :
    (d.reg r).getLsbD 23 = false ∧ (d.source24 r).Represents ((d.reg r).toNat * 2 ^ 24) := by
  have hsign : (d.reg r).getLsbD 23 = false := by
    rw [getLsbD_eq_decide, decide_eq_false_iff_not]
    omega
  have hsource : d.source24 r = ⟨0, d.reg r, 0⟩ := by
    rw [source24, signLimb, hsign, if_neg Bool.false_ne_true]
  have hfits : Fits 24 (d.reg r) := hS.trans (by decide)
  have hwithin : Limbs.Within ⟨0, d.reg r, 0⟩ :=
    ⟨(by decide : Fits 8 (0 : U32)), hfits, (by decide : Fits 24 (0 : U32))⟩
  rw [hsource]
  refine ⟨hsign, hwithin, BitVec.eq_of_toNat_eq ?_⟩
  rw [hwithin.toNat_bits, toNat_ofInt]
  change 0 * 2 ^ 48 + (d.reg r).toNat * 2 ^ 24 + 0 = _
  omega

theorem Limbs.Within.lo_eq {x : Limbs} (h : x.Within) :
    (x.lo.toNat : ℤ) = x.bits.toInt % 2 ^ 24 := by
  obtain ⟨-, -, hlo⟩ := h.bounds
  rw [toInt_eq_toNat_cond, h.toNat_bits]
  split_ifs <;> omega

theorem toNat_bitAt_carry (d : Dsp) : (bitAt (d.reg regSR) 0).toNat = d.carry.toNat := by
  rw [toNat_bitAt, carry, getLsbD_eq_decide]
  by_cases hodd : (d.reg regSR).toNat / 2 ^ 0 % 2 = 1
  · rw [hodd]
    rfl
  · rw [decide_eq_false hodd, Bool.toNat_false]
    omega

/-- The sum or difference of `DIV`, before the bit of the quotient. -/
def divSum (d : Dsp) (inst : U32) : Limbs :=
  ((if (d.accu (destOf inst)).sign ^^
    (d.source24 (sourceLogical inst)).mid.getLsbD 23 then add56 else sub56)
    (d.source24 (sourceLogical inst)) (asl56 (d.accu (destOf inst))).1).1

/-- The accumulator after `DIV`. -/
def divResult (d : Dsp) (inst : U32) : Limbs :=
  { d.divSum inst with lo := (d.divSum inst).lo ||| bitAt (d.reg regSR) 0 }

theorem represents_divSum (h : Divides d inst S a c) (hS : S < 2 ^ 23) :
    (d.divSum inst).Represents (2 * if a < 0 then a + S * 2 ^ 23 else a - S * 2 ^ 23) := by
  obtain ⟨hdivisor, hwithin, hvalue, -⟩ := h
  obtain ⟨hsource, hrep⟩ := represents_source24 (d := d) (r := sourceLogical inst) (by omega)
  have hdest : (d.accu (destOf inst)).Represents a := hvalue ▸ hwithin.represents
  have hshift := represents_asl56 hdest
  have hsign := sign_accu hwithin
  have hmid : (d.source24 (sourceLogical inst)).mid.getLsbD 23 = false := hsource
  rw [hvalue] at hsign
  rw [hdivisor, (by ring : S * 2 ^ 24 = 2 * (S * 2 ^ 23))] at hrep
  rw [divSum, hmid, Bool.xor_false]
  by_cases hneg : a < 0
  · rw [if_pos (hsign.2 hneg), if_pos hneg, Int.mul_add]
    exact represents_add56 hrep hshift
  · rw [if_neg (mt hsign.1 hneg), if_neg hneg, Int.mul_sub]
    exact represents_sub56 hrep hshift

theorem divStep_eq (S a c : ℤ) :
    (divStep (S * 2 ^ 24) (a, c)).1 =
      2 * (if a < 0 then a + S * 2 ^ 23 else a - S * 2 ^ 23) + c := by
  unfold divStep
  split_ifs <;> ring

theorem represents_divResult (h : Divides d inst S a c) (hS : S < 2 ^ 23) :
    (d.divResult inst).Represents (divStep (S * 2 ^ 24) (a, c)).1 := by
  rw [divStep_eq, ← h.bit]
  exact represents_setLow (represents_divSum h hS) d.carry (toNat_bitAt_carry d)

theorem toInt_divResult (h : Divides d inst S a c) (hS : S < 2 ^ 23) (hlo : -2 ^ 53 ≤ a)
    (hhi : a < 2 ^ 53) : (d.divResult inst).bits.toInt = (divStep (S * 2 ^ 24) (a, c)).1 := by
  have hc : c = 0 ∨ c = 1 := by
    rw [← h.bit]
    cases d.carry
    · exact .inl rfl
    · exact .inr rfl
  have hdivisor := h.divisor
  have hrange : ¬ OutOf 56 (divStep (S * 2 ^ 24) (a, c)).1 := by
    rw [divStep_eq, OutOf]
    split_ifs <;> omega
  rw [(represents_divResult h hS).bits]
  exact toInt_ofInt_of_not_outOf (by decide) hrange

theorem accu_div (d : Dsp) (inst : U32) : (d.div inst).accu (destOf inst) = d.divResult inst :=
  (accu_congr (destOf_lt inst) fun _ hne => reg_updateSr hne _ _ _).trans
    (accu_setAccu d _ (d.divResult inst))

theorem carry_div (d : Dsp) (inst : U32) : (d.div inst).carry = !(d.divResult inst).sign := by
  have hdiv : (d.div inst).carry = ((d.setAccu (destOf inst) (d.divResult inst)).updateSr 3
      ((if (d.divResult inst).sign then 0 else 1) |||
        ((asl56 (d.accu (destOf inst))).2 &&& 0x40) |||
        ((asl56 (d.accu (destOf inst))).2 &&& 2))).carry := rfl
  rw [hdiv, carry, getLsbD_updateSr]
  cases (d.divResult inst).sign <;> simp

theorem div_step (h : Divides d inst S a c) (hS : S < 2 ^ 23) (hlo : -2 ^ 53 ≤ a)
    (hhi : a < 2 ^ 53) :
    Divides (d.div inst) inst S (divStep (S * 2 ^ 24) (a, c)).1
      (divStep (S * 2 ^ 24) (a, c)).2 := by
  have hwithin := (represents_divResult h hS).within
  have hresult := toInt_divResult h hS hlo hhi
  refine ⟨?_, ?_, ?_, ?_⟩
  · have hlt := sourceLogical_lt inst
    rw [div, reg_updateSr (hlt.trans (by decide)).ne,
      reg_setAccu (destOf_lt inst) (.inl hlt), h.divisor]
  · rw [accu_div]
    exact hwithin
  · rw [accuInt, accu_div]
    exact hresult
  · have hnext : (divStep (S * 2 ^ 24) (a, c)).2 = if (divStep (S * 2 ^ 24) (a, c)).1 <
      0 then 0 else 1 := rfl
    rw [carry_div, hnext, ← hresult, hwithin.sign_eq, msb_eq_toInt]
    by_cases hneg : (d.divResult inst).bits.toInt < 0
    · rw [decide_eq_true hneg, if_pos hneg]
      rfl
    · rw [decide_eq_false hneg, if_neg hneg]
      rfl

/-- `k` times `DIV`. -/
def divs (d : Dsp) (inst : U32) (k : ℕ) : Dsp := (fun d => d.div inst)^[k] d

theorem divs_run (h : Divides d inst S a 0) (ha : 0 ≤ a) (hS : S < 2 ^ 23) (hlt : a < S * 2 ^ 24)
    {k : ℕ} (hk : k ≤ 24) :
    Divides (d.divs inst k) inst S ((divStep (S * 2 ^ 24))^[k] (a, 0)).1
      ((divStep (S * 2 ^ 24))^[k] (a, 0)).2 := by
  induction k with
  | zero => exact h
  | succ k ih =>
    obtain ⟨p, q, c, hiter, hdiv⟩ :=
      dividing_iterate (k := 24) (j := k) ha hlt (dvd_mul_left _ _) (by omega)
    -- the remainder stays between the divisor and its opposite
    have hbounds := hdiv.bounds ((pow_dvd_pow 2 (by omega : k ≤ 24)).trans (dvd_mul_left _ _))
    have hstep := ih (by omega)
    rw [hiter] at hstep
    rw [divs, Function.iterate_succ_apply', Function.iterate_succ_apply', hiter]
    exact div_step hstep hS (by omega) (by omega)

/-- `ANDI #$FE,CCR` -/
def clearCarry : U32 := 0x00feb9

theorem reg_clearCarry (d : Dsp) {r : ℕ} (hr : r ≠ regSR) : (d.andi clearCarry).reg r = d.reg r :=
  reg_setReg_of_ne d hr _

theorem carry_clearCarry (d : Dsp) : (d.andi clearCarry).carry = false := by
  have hsr : (d.andi clearCarry).reg regSR = d.reg regSR &&& 0xfffe := reg_setReg_self _ _ _
  rw [carry, hsr, getLsbD_and]
  exact Bool.and_false _

/-- **Division.**  `C` is cleared, and 24 times `DIV` leave the quotient in `A0` or `B0`. -/
theorem division (hwithin : (d.accu (destOf inst)).Within)
    (hpos : 0 < (d.reg (sourceLogical inst)).toNat)
    (hS : (d.reg (sourceLogical inst)).toNat < 2 ^ 23) (hN : 0 ≤ d.accuInt (destOf inst))
    (hlt : d.accuInt (destOf inst) < (d.reg (sourceLogical inst)).toNat * 2 ^ 24) :
    ((((d.andi clearCarry).divs inst 24).reg (regA0 + destOf inst)).toNat : ℤ) =
      d.accuInt (destOf inst) / (2 * (d.reg (sourceLogical inst)).toNat) := by
  have haccu : (d.andi clearCarry).accu (destOf inst) = d.accu (destOf inst) :=
    accu_congr (destOf_lt inst) fun _ hr => reg_clearCarry d hr
  have hstart : Divides (d.andi clearCarry) inst (d.reg (sourceLogical inst)).toNat
      (d.accuInt (destOf inst)) 0 := by
    refine ⟨?_, ?_, ?_, ?_⟩
    · rw [reg_clearCarry d ((sourceLogical_lt inst).trans (by decide)).ne]
    · rwa [haccu]
    · rw [accuInt, haccu, accuInt]
    · rw [carry_clearCarry]
      rfl
  have hrun := divs_run hstart hN (by omega) hlt le_rfl
  have hquot := divStep_run (k := 24) hN hlt (dvd_mul_left _ _)
  rw [← hrun.value, Int.mul_comm (2 ^ 24), Int.mul_ediv_mul_of_pos_left _ _ (by decide),
    Int.ediv_ediv_of_nonneg (by omega), Int.mul_comm _ 2] at hquot
  rw [← hquot]
  exact hrun.within.lo_eq

/-- `DIV X0,A` with 3 in `X0` and 100 in `A`. -/
theorem division_hundred :
    (((withRegs [(regX0, 3), (regA0, 100)]).andi clearCarry).divs 0x018040 24).reg regA0 = 16 := by
  have h := @division (withRegs [(regX0, 3), (regA0, 100)]) 0x018040 (by decide)
    (by decide) (by decide) (by decide +kernel) (by decide +kernel)
  refine BitVec.eq_of_toNat_eq ?_
  zify
  exact h.trans (by decide +kernel)

end Aranym.Dsp
