/-
  The scaling modes of the DSP: what is read from an accumulator, and `NORM`.

  Both rest on the extension test (`extensionBits_spec`): the bits above those that
  the scaling mode leaves to the number are all equal.
-/
import Aranym.Dsp.Accumulators
import Aranym.Dsp.Moves

namespace Aranym.Dsp

open Lib
open BitVec hiding not_not

variable {d : Dsp} {x : Limbs} {n : ℕ}

/-! ## The extension -/

/-- The bits of a number that needs no extension. -/
def scaledWidth : ℕ → ℕ
  | 1 => 49
  | 2 => 47
  | _ => 48

theorem scaling_cases (hs : d.scaling ≠ 3) : d.scaling = 0 ∨ d.scaling = 1 ∨ d.scaling = 2 := by
  have hlt : d.scaling < 4 := Nat.mod_lt _ (by decide)
  omega

theorem toNat_top {j : ℕ} (hj : j ≤ 2) (h : x.Within) {low : U32}
    (hlow : low.toNat = x.mid.toNat / 2 ^ (24 - j)) :
    ((x.hi &&& 0xff) <<< j ||| low).toNat = x.bits.toNat / 2 ^ (48 - j) := by
  obtain ⟨hhi, hmid, hlo⟩ := h.bounds
  have hlt : low.toNat < 2 ^ j := by
    rw [hlow]
    exact Nat.div_lt_of_lt_mul (by rwa [← Nat.pow_add, Nat.sub_add_cancel (by omega)])
  have hshift : ((x.hi &&& 0xff) <<< j).toNat = x.hi.toNat <<< j := by
    rw [toNat_shiftLeft, toNat_and_low (n := 8) _ rfl, Nat.mod_eq_of_lt hhi, Nat.mod_eq_of_lt]
    rw [Nat.shiftLeft_eq]
    calc x.hi.toNat * 2 ^ j < 2 ^ 8 * 2 ^ j := Nat.mul_lt_mul_of_pos_right hhi (Nat.two_pow_pos j)
      _ ≤ 2 ^ 8 * 2 ^ 2 := Nat.mul_le_mul_left _ (Nat.pow_le_pow_right (by decide) hj)
      _ ≤ 2 ^ 32 := by decide
  rw [toNat_or, hshift, ← Nat.shiftLeft_add_eq_or_of_lt hlt, Nat.shiftLeft_eq, hlow, h.toNat_bits]
  rcases (by omega : j = 0 ∨ j = 1 ∨ j = 2) with rfl | rfl | rfl <;> omega

theorem extension_iff {k : ℕ} (hk : k < 56) {value mask : U32}
    (hvalue : value.toNat = x.bits.toNat / 2 ^ k) (hmask : mask.toNat = 2 ^ (56 - k) - 1) :
    (value = 0 ∨ value = mask) ↔ ¬ OutOf (k + 1) x.bits.toInt := by
  have htop := topBits_iff hk x.bits
  rw [← htop, ← hvalue, ← hmask, ← toNat_inj, ← toNat_inj]
  rfl

theorem extensionBits_spec (hs : d.scaling ≠ 3) (h : x.Within) :
    ∃ value numbits, d.extensionBits x.hi x.mid = some (value, numbits) ∧
      ((value = 0 ∨ value = bitmask numbits) ↔ ¬ OutOf (scaledWidth d.scaling) x.bits.toInt) := by
  obtain ⟨-, hmid, -⟩ := h.bounds
  unfold extensionBits
  rcases scaling_cases hs with hm | hm | hm <;> rw [hm]
  · refine ⟨_, _, rfl, extension_iff (k := 47) (by decide) (toNat_top (by decide) h ?_) rfl⟩
    rw [toNat_bitAt]
    omega
  · refine ⟨_, _, rfl, extension_iff (k := 48) (by decide) ?_ rfl⟩
    have htop := toNat_top (j := 0) (by decide) h (by simp; omega : (0 : U32).toNat = _)
    simpa using htop
  · refine ⟨_, _, rfl, extension_iff (k := 46) (by decide) (toNat_top (by decide) h ?_) rfl⟩
    rw [toNat_and_low (n := 2) _ rfl, toNat_ushiftRight, Nat.shiftRight_eq_div_pow]
    omega

/-! ## Reads -/

section Reads

/-- The number that is read, with the scaling of the mode. -/
def scaledAccu (d : Dsp) (n : ℕ) : ℤ :=
  match d.scaling with
  | 1 => d.accuInt n / 2 / 2 ^ 24
  | 2 => d.accuInt n * 2 / 2 ^ 24
  | _ => d.accuInt n / 2 ^ 24

/-- What `dsp_pm_read_accu24` should deliver, with `L` (bit 6 of `SR`). -/
structure ReadExact (d : Dsp) (n : ℕ) : Prop where
  fits : ¬ OutOf 24 (d.scaledAccu n) →
    d.readSource (regA + n) = ((BitVec.ofInt 24 (d.scaledAccu n)).setWidth 32, d)
  limited : OutOf 24 (d.scaledAccu n) → d.readSource (regA + n) =
    (if d.accuInt n < 0 then 0x800000 else 0x7fffff, d.setReg regSR (d.reg regSR ||| 0x40))

/-- When the bits 47..24 are the scaled number. -/
def ScalingKept (d : Dsp) (n : ℕ) : Prop :=
  (d.scaling = 1 → -2 ^ 24 ≤ d.accuInt n ∧ d.accuInt n < 2 ^ 24) ∧
    (d.scaling = 2 → -2 ^ 23 ≤ d.accuInt n ∧ d.accuInt n < 2 ^ 23)
deriving Decidable

theorem outOf_scaled (hs : d.scaling ≠ 3) (n : ℕ) :
    OutOf 24 (d.scaledAccu n) ↔ OutOf (scaledWidth d.scaling) (d.accuInt n) := by
  unfold scaledAccu OutOf
  rcases scaling_cases hs with hm | hm | hm <;> rw [hm] <;>
    simp only [scaledWidth] <;> omega

/-- `dsp_pm_read_accu24` has the same test as `dsp_ccr_extension`. -/
theorem pmReadAccu24_of_extension {value : U32} {r numbits : ℕ}
    (he : d.extensionBits (d.accu (r % 2)).hi (d.accu (r % 2)).mid = some (value, numbits)) :
    d.pmReadAccu24 r =
    if value = 0 ∨ value = bitmask numbits then ((d.accu (r % 2)).mid, false)
    else if (d.accu (r % 2)).sign then (0x00800000, true) else (0x007fffff, true) := by
  have hlt : d.scaling < 4 := Nat.mod_lt _ (by decide)
  unfold extensionBits at he
  unfold pmReadAccu24
  rcases (by omega : d.scaling = 0 ∨ d.scaling = 1 ∨ d.scaling = 2 ∨
    d.scaling = 3) with hm | hm | hm | hm <;>
    rw [hm] at he ⊢ <;> simp only [Option.some.injEq, Prod.mk.injEq, reduceCtorEq] at he
  all_goals
    obtain ⟨rfl, rfl⟩ := he
    rfl

theorem readSource_eq (hs : d.scaling ≠ 3) (hn : n < 2) (h : (d.accu n).Within) :
    d.readSource (regA + n) =
    if OutOf 24 (d.scaledAccu n) then
      (if d.accuInt n < 0 then 0x800000 else 0x7fffff, d.setReg regSR (d.reg regSR ||| 0x40))
    else ((d.accu n).mid, d) := by
  have hmod : (regA + n) % 2 = n := by
    rw [regA]
    omega
  have haccu : isAccu (regA + n) := by
    rw [isAccu, regA, regB]
    omega
  obtain ⟨value, numbits, he, hiff⟩ := extensionBits_spec hs h
  have hread := pmReadAccu24_of_extension (r := regA + n) (by rw [hmod]; exact he)
  rw [hmod] at hread
  have htest : (value = 0 ∨ value = bitmask numbits) ↔ ¬ OutOf 24 (d.scaledAccu n) :=
    hiff.trans (not_congr (outOf_scaled hs n)).symm
  have hsign := sign_accu h
  rw [readSource, if_pos haccu, hread]
  simp only [htest, hsign]
  by_cases hlim : OutOf 24 (d.scaledAccu n)
  · rw [if_neg (not_not.2 hlim), if_pos hlim]
    split_ifs <;> rfl
  · rw [if_pos hlim, if_neg hlim]
    rfl

/-- In a scaling mode the bits 47..24 are the scaled number only where it is small. -/
theorem mid_eq_iff (h : (d.accu n).Within) (hs : d.scaling ≠ 3)
    (hfits : ¬ OutOf 24 (d.scaledAccu n)) :
    (d.accu n).mid = (BitVec.ofInt 24 (d.scaledAccu n)).setWidth 32 ↔ d.ScalingKept n := by
  obtain ⟨-, hmid, hlo⟩ := h.bounds
  have hbits := h.toNat_bits
  have hint : d.accuInt n = _ := toInt_eq_toNat_cond _
  have hmidInt : ((d.accu n).mid.toNat : ℤ) = d.accuInt n / 2 ^ 24 % 2 ^ 24 := by
    rw [hint]
    split_ifs <;> omega
  have hval : (((BitVec.ofInt 24 (d.scaledAccu n)).setWidth 32).toNat : ℤ) =
      d.scaledAccu n % 2 ^ 24 := by
    rw [toNat_setWidth, toNat_ofInt]
    omega
  rw [← toNat_inj, ← Int.natCast_inj, hmidInt, hval]
  unfold OutOf scaledAccu at hfits
  unfold ScalingKept scaledAccu
  rcases scaling_cases hs with hm | hm | hm <;> rw [hm] at hfits ⊢
  · simp
  · simp only [forall_const, OfNat.one_ne_ofNat, IsEmpty.forall_iff, and_true] at hfits ⊢
    omega
  · simp only [OfNat.ofNat_ne_one, IsEmpty.forall_iff, forall_const, true_and] at hfits ⊢
    omega

/-- **Accumulator reads.**  Limiting is right in all modes, but the value is never scaled: it is
    right if and only if it is limited, or the bits 47..24 happen to be those of the scaled
    number. -/
theorem read_exact_iff (hs : d.scaling ≠ 3) (hn : n < 2) (h : (d.accu n).Within) :
    ReadExact d n ↔ OutOf 24 (d.scaledAccu n) ∨ d.ScalingKept n := by
  have hread := readSource_eq hs hn h
  constructor
  · intro hexact
    by_cases hout : OutOf 24 (d.scaledAccu n)
    · exact .inl hout
    · have hval := hexact.fits hout
      rw [hread, if_neg hout] at hval
      exact .inr ((mid_eq_iff h hs hout).1 (Prod.ext_iff.1 hval).1)
  · intro hkept
    refine ⟨fun hout => ?_, fun hout => ?_⟩
    · rw [hread, if_neg hout, (mid_eq_iff h hs hout).2 (hkept.resolve_left hout)]
    · rw [hread, if_pos hout]

/-- `A` = `-2 ^ 24` with scaling down is read as `-1`. -/
theorem read_minus_one :
    ReadExact (withRegs [(regSR, 0x400), (regA2, 0xff), (regA1, 0xffffff)]) 0 :=
  (read_exact_iff (by decide) (by decide) (by decide)).2
    (.inr (by decide +kernel))

/-- `A` = `2 ^ 25` with scaling down is read as 2 instead of 1. -/
theorem read_not_scaled : (accu (withRegs [(regSR, 0x400), (regA1, 2)]) 0).Within ∧
    scaling (withRegs [(regSR, 0x400), (regA1, 2)]) = 1 ∧
    ¬ ReadExact (withRegs [(regSR, 0x400), (regA1, 2)]) 0 := by
  refine ⟨by decide, by decide, fun h => ?_⟩
  have hval := congrArg Prod.fst (h.fits (by decide +kernel))
  exact absurd hval (by decide +kernel)

end Reads

/-! ## Masks of the status register -/

section Masks

theorem setReg_reg_self (d : Dsp) (r : ℕ) : d.setReg r (d.reg r) = d := by
  unfold setReg reg
  rw [Function.update_eq_self]

theorem updateSr_updateSr (d : Dsp) (c b : U32) {m s t : U32}
    (hc : 0xffff - c &&& (0xffff - b) = 0xffff - m) :
    (d.updateSr c s).updateSr b t = d.updateSr m (s &&& (0xffff - b) ||| t) := by
  rw [updateSr, updateSr, reg_setReg_self, setReg_setReg, and_or_distrib_right, BitVec.and_assoc,
    BitVec.or_assoc, hc]
  rfl

theorem scaling_eq (d : Dsp) :
    d.scaling = 2 * ((d.reg regSR).getLsbD 11).toNat + ((d.reg regSR).getLsbD 10).toNat := by
  rw [scaling, field, toNat_ushiftRight, Nat.shiftRight_eq_div_pow, getLsbD_eq_decide,
    getLsbD_eq_decide]
  by_cases h11 : (d.reg regSR).toNat / 2 ^ 11 % 2 =
    1 <;> by_cases h10 : (d.reg regSR).toNat / 2 ^ 10 % 2 = 1 <;>
    simp only [h11, h10, decide_true, decide_false, Bool.toNat_true, Bool.toNat_false] <;> omega

theorem scaling_updateSr {c s : U32} (hc : 0xffff - c &&& 0xc00 = 0xc00) (hs : s &&& 0xc00 = 0) :
    (d.updateSr c s).scaling = d.scaling := by
  have hbit : ∀ i, (0xc00 : U32).getLsbD i = true →
      ((d.updateSr c s).reg regSR).getLsbD i = (d.reg regSR).getLsbD i := by
    intro i hi
    have hci := congrArg (·.getLsbD i) hc
    have hsi := congrArg (·.getLsbD i) hs
    simp only [getLsbD_and, hi, Bool.and_true] at hci hsi
    rw [getLsbD_updateSr, hci, hsi]
    simp
  rw [scaling_eq, scaling_eq, hbit 11 rfl, hbit 10 rfl]

end Masks

/-! ## The condition codes without scaling -/

section Codes

/-- The four bits. -/
def ccrFlags (extension unnormalized negative zero : Bool) : U32 :=
  (if extension then 0x20 else 0) ||| (if unnormalized then 0x10 else 0) |||
    (if negative then 8 else 0) |||
    if zero then 4 else 0

theorem getLsbD_ccrFlags (e u n z : Bool) :
    (ccrFlags e u n z).getLsbD 5 = e ∧ (ccrFlags e u n z).getLsbD 4 = u ∧
    (ccrFlags e u n z).getLsbD 2 = z := by
  cases e <;> cases u <;> cases n <;> cases z <;> decide

theorem joinFlags (e n : Bool) (u z : Prop) [Decidable u] [Decidable z] :
    (((if e then 0x20 else 0 : U32) &&& (0xffff - 0x10) ||| if u then 0x10 else 0) &&&
      (0xffff - 8) |||
      if n then 8 else 0) &&& (0xffff - 4) ||| (if z then 4 else 0) =
        ccrFlags e (decide u) n (decide z) := by
  by_cases hu : u <;> by_cases hz : z <;> simp only [hu, hz, if_true, if_false, decide_true,
    decide_false] <;>
    cases e <;> cases n <;> decide

/-- The four flags of the limbs, without scaling. -/
def flagsOf (x : Limbs) : U32 :=
  let value := (x.hi &&& 0xff) <<< 1 ||| bitAt x.mid 23
  ccrFlags (!decide (value = 0 ∨ value = bitmask 9))
    (decide (x.mid >>> 22 &&& 3 = 0 ∨ x.mid >>> 22 &&& 3 = 3)) x.sign
    (decide (x.lo &&& 0xffffff = 0 ∧ x.mid &&& 0xffffff = 0 ∧ x.hi &&& 0xff = 0))

theorem bitAt_shift_sign (x : Limbs) : bitAt x.hi 7 <<< 3 = if x.sign then 8 else 0 := by
  have hbit : bitAt x.hi 7 = if x.sign then 1 else 0 := by
    refine BitVec.eq_of_toNat_eq ?_
    rw [toNat_bitAt, Limbs.sign, getLsbD_eq_decide]
    simp only [decide_eq_true_eq]
    split_ifs with h
    · exact h
    · change _ = 0
      omega
  rw [hbit]
  split_ifs <;> rfl

theorem ccr_eq (hs : d.scaling = 0) (x : Limbs) : d.ccr x = d.updateSr 0x3c (flagsOf x) := by
  have hflag : ∀ (p : Prop) [Decidable p], (if p then 0 else 0x20 : U32) =
      if !decide p then 0x20 else 0 := by
    intro p _
    by_cases hp : p <;> simp [hp]
  have hext : d.ccrExtension x.hi x.mid =
    d.updateSr 0x20 (if !decide ((x.hi &&& 0xff) <<< 1 ||| bitAt x.mid 23 = 0 ∨
      (x.hi &&& 0xff) <<< 1 ||| bitAt x.mid 23 = bitmask 9) then 0x20 else 0) := by
    unfold ccrExtension extensionBits
    rw [hs]
    exact congrArg (d.updateSr 0x20) (hflag _)
  rw [ccr, hext]
  unfold flagsOf
  dsimp only
  generalize (!decide ((x.hi &&& 0xff) <<< 1 ||| bitAt x.mid 23 = 0 ∨
      (x.hi &&& 0xff) <<< 1 ||| bitAt x.mid 23 = bitmask 9)) = e
  have hun : (d.updateSr 0x20 (if e then 0x20 else 0)).ccrUnnormalized x.hi x.mid =
      (d.updateSr 0x20 (if e then 0x20 else 0)).updateSr 0x10
        (if x.mid >>> 22 &&& 3 = 0 ∨ x.mid >>> 22 &&& 3 = 3 then 0x10 else 0) := by
    unfold ccrUnnormalized
    rw [scaling_updateSr rfl (by cases e <;> rfl), hs]
    rfl
  rw [hun, ccrNegative, ccrZero, bitAt_shift_sign, updateSr_updateSr d 0x20 0x10 (m := 0x30) rfl,
    updateSr_updateSr d 0x30 8 (m := 0x38) rfl,
    updateSr_updateSr d 0x38 4 (m := 0x3c) rfl, joinFlags]

end Codes

/-! ## Normalisation -/

section Norm

variable {inst test : U32}

/-- The condition codes of an accumulator are not changed by the other flags. -/
theorem ccr_settled (hs : d.scaling = 0) {c : U32} (hc : c = 2 ∨ c = 3) (x : Limbs)
    (overflow carry : Bool) :
    ((d.ccr x).updateSr c (statusBits overflow carry)).scaling = 0 ∧
    ((d.ccr x).updateSr c (statusBits overflow carry)).ccr x =
      (d.ccr x).updateSr c (statusBits overflow carry) := by
  have hflags : ∀ e u n z o k : Bool,
      ccrFlags e u n z &&& 0xc00 = 0 ∧ statusBits o k &&& 0xc00 = 0 ∧
      (ccrFlags e u n z &&& (0xffff - 2) ||| statusBits o k) &&& (0xffff - 0x3c) |||
        ccrFlags e u n z =
        ccrFlags e u n z &&& (0xffff - 2) ||| statusBits o k ∧
      (ccrFlags e u n z &&& (0xffff - 3) ||| statusBits o k) &&& (0xffff - 0x3c) |||
        ccrFlags e u n z =
        ccrFlags e u n z &&& (0xffff - 3) ||| statusBits o k := by
    decide +kernel
  obtain ⟨e, u, n, z, hF⟩ : ∃ e u n z, flagsOf x = ccrFlags e u n z := ⟨_, _, _, _, rfl⟩
  obtain ⟨h1, h2, h3, h4⟩ := hflags e u n z overflow carry
  have hscale : ((d.ccr x).updateSr c (statusBits overflow carry)).scaling = 0 := by
    rw [ccr_eq hs, hF, scaling_updateSr (by rcases hc with rfl | rfl <;> rfl) h2,
      scaling_updateSr rfl h1, hs]
  refine ⟨hscale, ?_⟩
  rw [ccr_eq hscale, ccr_eq hs, hF]
  rcases hc with rfl | rfl
  · rw [updateSr_updateSr d 0x3c 2 (m := 0x3e) rfl,
      updateSr_updateSr d 0x3e 0x3c (m := 0x3e) rfl, h3]
  · rw [updateSr_updateSr d 0x3c 3 (m := 0x3f) rfl,
      updateSr_updateSr d 0x3f 0x3c (m := 0x3f) rfl, h4]

/-- Without scaling, the condition codes are those of the accumulator. -/
structure Steered (d : Dsp) (n : ℕ) : Prop where
  within : (d.accu n).Within
  scaling : d.scaling = 0
  settled : d.ccr (d.accu n) = d

theorem steered_finish (hn : n < 2) (hs : d.scaling = 0) (hx : x.Within) (overflow carry : Bool) :
    Steered (d.finish n x (statusBits overflow carry)) n := by
  have haccu := accu_finish hn d x (statusBits overflow carry)
  have hs' : (d.setAccu n x).scaling = 0 := by
    rw [Dsp.scaling, reg_setAccu hn (.inr (by decide))]
    exact hs
  obtain ⟨hscale, hsettled⟩ := ccr_settled hs' (.inr rfl) x overflow carry
  exact ⟨by rwa [haccu], hscale, by rw [haccu]; exact hsettled⟩

theorem steered_tst (hs : d.scaling = 0) (hx : (d.accu (destOf test)).Within) :
    Steered (d.tst test) (destOf test) := by
  have haccu : (d.tst test).accu (destOf test) = d.accu (destOf test) :=
    accu_congr (destOf_lt test) fun r hr => (reg_updateSr hr _ _ _).trans (reg_ccr hr _ _)
  obtain ⟨hscale, hsettled⟩ := ccr_settled hs (.inl rfl) (d.accu (destOf test)) false false
  exact ⟨by rwa [haccu], hscale, by rw [haccu]; exact hsettled⟩

theorem Steered.getLsbD (h : Steered d n) {i : ℕ} (hi : (0xffff - 0x3c : U32).getLsbD i = false) :
    (d.reg regSR).getLsbD i = (flagsOf (d.accu n)).getLsbD i := by
  have hsr := congrArg (fun e => (e.reg regSR).getLsbD i) h.settled
  rw [ccr_eq h.scaling] at hsr
  rw [getLsbD_updateSr, hi, Bool.and_false, Bool.false_or] at hsr
  exact hsr.symm

theorem Steered.extended (h : Steered d n) :
    (d.reg regSR).getLsbD 5 = true ↔ Extended 46 (d.accuInt n) := by
  obtain ⟨value, numbits, he, hiff⟩ :=
    extensionBits_spec (d := d) (by rw [h.scaling]; decide) h.within
  unfold extensionBits at he
  rw [h.scaling] at he hiff
  obtain ⟨rfl, rfl⟩ := he
  rw [h.getLsbD rfl, flagsOf, (getLsbD_ccrFlags _ _ _ _).1, Bool.not_eq_true',
    decide_eq_false_iff_not, hiff, not_not]
  rfl

theorem accuInt_eq (h : (d.accu n).Within) : d.accuInt n =
    (d.accu n).hi.toNat * 2 ^ 48 + (d.accu n).mid.toNat * 2 ^ 24 + (d.accu n).lo.toNat -
      if (d.accu n).hi.toNat < 2 ^ 7 then 0 else 2 ^ 56 := by
  obtain ⟨hhi, hmid, hlo⟩ := h.bounds
  rw [accuInt, toInt_eq_toNat_cond, h.toNat_bits]
  split_ifs <;> omega

theorem Steered.unnormalized (h : Steered d n) (hext : ¬ Extended 46 (d.accuInt n)) :
    (d.reg regSR).getLsbD 4 = true ↔ Unnormalized 46 (d.accuInt n) := by
  obtain ⟨-, hmid, hlo⟩ := h.within.bounds
  have hval := accuInt_eq h.within
  rw [h.getLsbD rfl, flagsOf, (getLsbD_ccrFlags _ _ _ _).2.1, decide_eq_true_eq,
    ← toNat_inj, ← toNat_inj,
    toNat_and_low (n := 2) _ rfl, toNat_ushiftRight, Nat.shiftRight_eq_div_pow]
  change (_ = 0 ∨ _ = 3) ↔ _
  unfold Extended at hext
  unfold Unnormalized
  split_ifs at hval <;> omega

theorem Steered.zero (h : Steered d n) : (d.reg regSR).getLsbD 2 = true ↔ d.accuInt n = 0 := by
  obtain ⟨hhi, hmid, hlo⟩ := h.within.bounds
  have hval := accuInt_eq h.within
  rw [h.getLsbD rfl, flagsOf, (getLsbD_ccrFlags _ _ _ _).2.2, decide_eq_true_eq,
    ← toNat_inj, ← toNat_inj,
    ← toNat_inj, toNat_and_low (n := 24) _ rfl, toNat_and_low (n := 24) _ rfl,
    toNat_and_low (n := 8) _ rfl]
  change _ = 0 ∧ _ = 0 ∧ _ = 0 ↔ _
  split_ifs at hval <;> omega

/-- The direction of the shift that `NORM` makes: 1 for the left, -1 for the right. -/
def normShift (d : Dsp) : ℤ :=
  let c (i : ℕ) : Bool := (d.reg regSR).getLsbD i
  if !c 5 && c 4 && !c 2 then 1 else if c 5 then -1 else 0

/-- The address register of `NORM`. -/
def normReg (inst : U32) : ℕ := regR0 + field inst 8 3

theorem norm_cases (h : Steered d n) (hn : n = destOf inst) :
    (Unnormalized 46 (d.accuInt n) ∧ d.accuInt n ≠ 0 ∧ d.normShift = 1 ∧ d.norm inst =
      (d.setReg (normReg inst) ((d.reg (normReg inst) - 1) &&& 0xffff)).finish n
        (asl56 (d.accu n)).1 (asl56 (d.accu n)).2) ∨
    (Extended 46 (d.accuInt n) ∧ d.normShift = -1 ∧ d.norm inst =
      (d.setReg (normReg inst) ((d.reg (normReg inst) + 1) &&& 0xffff)).finish n
        (asr56 (d.accu n)).1 (asr56 (d.accu n)).2) ∨
    (Normalized 46 (d.accuInt n) ∧ d.normShift = 0 ∧ d.norm inst = d.finish n (d.accu n) 0) := by
  subst hn
  unfold normShift norm
  by_cases hext : Extended 46 (d.accuInt (destOf inst))
  · have h5 := h.extended.2 hext
    simp only [h5, Bool.not_true, Bool.false_and, Bool.false_eq_true, if_false, if_true]
    exact .inr (.inl ⟨hext, trivial, rfl⟩)
  · have h5 : (d.reg regSR).getLsbD 5 = false := Bool.eq_false_of_not_eq_true (mt h.extended.1 hext)
    have h4 := h.unnormalized hext
    have h2 := h.zero
    by_cases hun : Unnormalized 46 (d.accuInt (destOf inst)) ∧ d.accuInt (destOf inst) ≠ 0
    · have h2' : (d.reg regSR).getLsbD 2 = false := Bool.eq_false_of_not_eq_true (mt h2.1 hun.2)
      simp only [h5, h4.2 hun.1, h2', Bool.not_false, Bool.and_true, if_true]
      exact .inl ⟨hun.1, hun.2, trivial, rfl⟩
    · have hnot : ((d.reg regSR).getLsbD 4 && !(d.reg regSR).getLsbD 2) = false := by
        rw [Bool.and_eq_false_imp]
        intro hu
        rw [Bool.not_eq_false']
        exact h2.2 (by_contra fun hz => hun ⟨h4.1 hu, hz⟩)
      simp only [h5, Bool.not_false, Bool.true_and, hnot, Bool.false_eq_true, if_false]
      exact .inr (.inr ⟨⟨hext, fun hu => by_contra fun hz => hun ⟨hu, hz⟩⟩, trivial, trivial⟩)

theorem toInt_asl56 (h : x.Within) (hun : Unnormalized 46 x.bits.toInt) :
    (asl56 x).1.bits.toInt = x.bits.toInt * 2 := by
  unfold Unnormalized at hun
  rw [(represents_asl56 h.represents).bits,
    toInt_ofInt_of_not_outOf (by decide) (by unfold OutOf; omega), Int.mul_comm]

theorem toInt_asr56 (h : x.Within) : (asr56 x).1.bits.toInt = x.bits.toInt / 2 := by
  rw [bits_asr56 h, toInt_sshiftRight, Int.shiftRight_eq_div_pow]
  rfl

theorem reg_finish (hn : n < 2) {r : ℕ} (hr : regA ≤ r) (hsr : r ≠ regSR) (x : Limbs)
    (newsr : U32) : (d.finish n x newsr).reg r = d.reg r := by
  rw [finish, reg_updateSr hsr, reg_ccr hsr, reg_setAccu hn (.inr hr)]

theorem normReg_bounds (inst : U32) : regA ≤ normReg inst ∧ normReg inst ≠ regSR := by
  have hlt : field inst 8 3 < 2 ^ 3 := Nat.mod_lt _ (by decide)
  simp only [normReg, regA, regR0, regSR]
  omega

theorem setWidth_step (v : U32) :
    ((v - 1) &&& 0xffff).setWidth 16 = v.setWidth 16 - BitVec.ofInt 16 1 ∧
      ((v + 1) &&& 0xffff).setWidth 16 = v.setWidth 16 - BitVec.ofInt 16 (-1) := by
  have hone : BitVec.ofInt 16 1 = 1#16 := rfl
  have hminus : BitVec.ofInt 16 (-1) = 0xffff#16 := rfl
  rw [setWidth_and_low _ rfl, setWidth_and_low _ rfl, hone, hminus]
  constructor <;> bv_omega

/-- A branch of `NORM` that shifts: the accumulator and the address register. -/
theorem steered_shift (inst : U32) (h : Steered d n) (hn : n < 2) (hx : x.Within) (v : U32)
    (overflow carry : Bool) :
    Steered ((d.setReg (normReg inst) v).finish n x (statusBits overflow carry)) n ∧
    ((d.setReg (normReg inst) v).finish n x (statusBits overflow carry)).accuInt n = x.bits.toInt ∧
    ((d.setReg (normReg inst) v).finish n x (statusBits overflow carry)).reg
      (normReg inst) = v := by
  obtain ⟨hge, hne⟩ := normReg_bounds inst
  have hs : (d.setReg (normReg inst) v).scaling = 0 := by
    rw [Dsp.scaling, reg_setReg_of_ne _ hne.symm]
    exact h.scaling
  refine ⟨steered_finish hn hs hx _ _, ?_, ?_⟩
  · rw [accuInt, accu_finish hn]
  · rw [reg_finish hn hge hne, reg_setReg_self]

theorem Steered.finish_accu (h : Steered d n) : d.finish n (d.accu n) 0 = d.updateSr 3 0 := by
  have hset : d.setAccu n (d.accu n) = d := by
    simp only [setAccu, accu, setReg_reg_self]
  rw [finish, hset, h.settled]

theorem norm_step (h : Steered d n) (hn : n = destOf inst) (s : ℤ) : Steered (d.norm inst) n ∧
    ((d.norm inst).accuInt n, s + d.normShift) = normStep 46 (d.accuInt n, s) ∧
    ((d.norm inst).reg (normReg inst)).setWidth 16 =
      (d.reg (normReg inst)).setWidth 16 - BitVec.ofInt 16 d.normShift := by
  have hlt : n < 2 := hn ▸ destOf_lt inst
  obtain ⟨hge, hne⟩ := normReg_bounds inst
  rcases norm_cases h hn with ⟨hun, h0, hshift, hnorm⟩ | ⟨hext, hshift, hnorm⟩ | ⟨hnormal,
    hshift, hnorm⟩
  · obtain ⟨h1, h2, h3⟩ := steered_shift inst h hlt (result_asl56 (d.accu n)).within
      ((d.reg (normReg inst) - 1) &&& 0xffff) ((d.accu n).sign != (asl56 (d.accu n)).1.sign)
        (d.accu n).sign
    have hnext : ¬ Extended 46 (d.accuInt n) := by
      unfold Extended Unnormalized at *
      omega
    rw [hnorm, hshift]
    refine ⟨h1, ?_, ?_⟩
    · rw [normStep, if_neg hnext, if_pos ⟨hun, h0⟩]
      exact Prod.ext (h2.trans (toInt_asl56 h.within hun)) rfl
    · exact (congrArg (·.setWidth 16) h3).trans (setWidth_step _).1
  · obtain ⟨h1, h2, h3⟩ := steered_shift inst h hlt (result_asr56 (d.accu n)).within
      ((d.reg (normReg inst) + 1) &&& 0xffff) false ((d.accu n).lo.getLsbD 0)
    rw [hnorm, hshift]
    refine ⟨h1, ?_, ?_⟩
    · rw [normStep, if_pos hext]
      exact Prod.ext (h2.trans (toInt_asr56 h.within)) rfl
    · exact (congrArg (·.setWidth 16) h3).trans (setWidth_step _).2
  · have hstep := normStep_of_normalized (s := (d.accuInt n, s)) hnormal
    have hsteered := steered_finish hlt h.scaling h.within false false
    rw [hnorm, hshift, hstep]
    refine ⟨hsteered, ?_, ?_⟩
    · rw [accuInt, accu_finish hlt, Int.add_zero]
      rfl
    · rw [reg_finish hlt hge hne]
      exact (BitVec.sub_zero _).symm

/-- `k` times `NORM`. -/
def norms (d : Dsp) (inst : U32) (k : ℕ) : Dsp := (fun d => d.norm inst)^[k] d

theorem norms_succ (d : Dsp) (inst : U32) (k : ℕ) :
    d.norms inst (k + 1) = (d.norms inst k).norm inst :=
  Function.iterate_succ_apply' _ _ _

/-- The shifts to the left that `k` `NORM`s make, less those to the right. -/
def netShifts (d : Dsp) (inst : U32) : ℕ → ℤ
  | 0 => 0
  | k + 1 => netShifts d inst k + (d.norms inst k).normShift

theorem norms_run (h : Steered d n) (hn : n = destOf inst) (k : ℕ) : Steered (d.norms inst k) n ∧
    ((d.norms inst k).accuInt n, d.netShifts inst k) = (normStep 46)^[k] (d.accuInt n, 0) ∧
    ((d.norms inst k).reg (normReg inst)).setWidth 16 =
      (d.reg (normReg inst)).setWidth 16 - BitVec.ofInt 16 (d.netShifts inst k) := by
  induction k with
  | zero => exact ⟨h, rfl, (BitVec.sub_zero _).symm⟩
  | succ k ih =>
    obtain ⟨hsteered, hvalue, hreg⟩ := ih
    obtain ⟨h1, h2, h3⟩ := norm_step hsteered hn (d.netShifts inst k)
    rw [norms_succ, netShifts]
    refine ⟨h1, ?_, ?_⟩
    · rw [h2, hvalue, Function.iterate_succ_apply']
    · rw [h3, hreg, ofInt_add, BitVec.sub_sub]

/-- Zero, or bits 55..47 equal and bit 46 different from them. -/
def Limbs.Normal (x : Limbs) : Prop :=
  x.bits = 0 ∨ (∀ i, 47 ≤ i → i < 56 → x.bits.getLsbD i = x.bits.getLsbD 47) ∧
    x.bits.getLsbD 47 ≠ x.bits.getLsbD 46

theorem getLsbD_of_not_extended (h : ¬ Extended 46 x.bits.toInt) {i : ℕ} (hi : 47 ≤ i)
    (hi' : i < 56) : x.bits.getLsbD i = decide (x.bits.toInt < 0) := by
  have hlt := x.bits.isLt
  have hval := toInt_eq_toNat_cond x.bits
  have hpow : 2 ^ 47 ≤ 2 ^ i := Nat.pow_le_pow_right (by decide) hi
  unfold Extended at h
  by_cases hneg : x.bits.toInt < 0
  · have hnot : (~~~ x.bits).getLsbD i = false := by
      refine Nat.testBit_lt_two_pow ?_
      rw [toNat_not]
      split_ifs at hval <;> omega
    rw [getLsbD_not, decide_eq_true hi', Bool.true_and, Bool.not_eq_false'] at hnot
    rw [hnot, decide_eq_true hneg]
  · rw [decide_eq_false hneg]
    refine Nat.testBit_lt_two_pow ?_
    split_ifs at hval <;> omega

theorem normal_of_normalized (h : Normalized 46 x.bits.toInt) : x.Normal := by
  obtain ⟨hext, hun⟩ := h
  by_cases h0 : x.bits.toInt = 0
  · exact .inl (eq_of_toInt_eq (h0.trans (by decide)))
  · have hval := toInt_eq_toNat_cond x.bits
    have h46 : x.bits.getLsbD 46 = !decide (x.bits.toInt < 0) := by
      have hun' := mt hun h0
      rw [BitVec.getLsbD, Nat.testBit_eq_decide_div_mod_eq, ← decide_not]
      refine decide_eq_decide.2 ?_
      unfold Unnormalized at hun'
      unfold Extended at hext
      split_ifs at hval <;> omega
    refine .inr ⟨fun i hi hi' => ?_, ?_⟩
    · rw [getLsbD_of_not_extended hext hi hi', getLsbD_of_not_extended hext (by decide) (by decide)]
    · rw [h46, getLsbD_of_not_extended hext (by decide) (by decide)]
      exact fun heq => Bool.not_ne_self _ heq.symm

/-- After `TST` and `k` `NORM`s: the accumulator is normalised, and the point has been moved by the
    shifts that were made; the next `NORM` clears `V` and `C`, and after it no other changes
    anything. -/
structure NormDone (d : Dsp) (test inst : U32) (k : ℕ) : Prop where
  normal : (((d.tst test).norms inst k).accu (destOf inst)).Normal
  within : (((d.tst test).norms inst k).accu (destOf inst)).Within
  value : ((d.tst test).norms inst k).accuInt (destOf inst) =
    shifted (d.accuInt (destOf inst)) ((d.tst test).netShifts inst k)
  register : (((d.tst test).norms inst k).reg (normReg inst)).setWidth 16 =
    (d.reg (normReg inst)).setWidth 16 - BitVec.ofInt 16 ((d.tst test).netShifts inst k)
  next : (d.tst test).norms inst (k + 1) = ((d.tst test).norms inst k).updateSr 3 0
  rest : ∀ j, (d.tst test).norms inst (k + 1 + j) = (d.tst test).norms inst (k + 1)

theorem norm_of_normalized (h : Steered d n) (hn : n = destOf inst)
    (hd : Normalized 46 (d.accuInt n)) : d.norm inst = d.updateSr 3 0 := by
  rcases norm_cases h hn with ⟨hun, h0, -, -⟩ | ⟨hext, -, -⟩ | ⟨-, -, hnorm⟩
  · exact absurd (hd.2 hun) h0
  · exact absurd hext hd.1
  · rw [hnorm, h.finish_accu]

/-- **Normalisation.** -/
theorem norm_done (htest : destOf test = destOf inst) (hs : d.scaling = 0)
    (hd : (d.accu (destOf inst)).Within) {k : ℕ} (hk : 47 ≤ k) : NormDone d test inst k := by
  have hstart : Steered (d.tst test) (destOf inst) := htest ▸ steered_tst hs (htest ▸ hd)
  have hframe : ∀ r ≠ regSR, (d.tst test).reg r = d.reg r :=
    fun r hr => (reg_updateSr hr _ _ _).trans (reg_ccr hr _ _)
  have hvalue : (d.tst test).accuInt (destOf inst) = d.accuInt (destOf inst) := by
    rw [accuInt, accu_congr (destOf_lt inst) hframe, accuInt]
  obtain ⟨hsteered, hrun, hreg⟩ := norms_run hstart rfl k
  rw [hvalue] at hrun
  obtain ⟨hnormal, hshift⟩ :=
    normStep_run (a := 46) (b := 55) (k := k) (x := d.accuInt (destOf inst))
    (le_toInt _) (toInt_lt) (by omega) (by omega)
  rw [← hrun] at hnormal hshift
  have hnext : (d.tst test).norms inst (k + 1) = ((d.tst test).norms inst k).updateSr 3 0 := by
    rw [norms_succ, norm_of_normalized hsteered rfl hnormal]
  have hfix : ((d.tst test).norms inst (k + 1)).norm inst = (d.tst test).norms inst (k + 1) := by
    have hnormal' : Normalized 46 (((d.tst test).norms inst (k + 1)).accuInt (destOf inst)) := by
      rw [hnext, accuInt, accu_congr (destOf_lt inst) fun r hr => reg_updateSr hr _ _ _]
      exact hnormal
    rw [norm_of_normalized (norms_run hstart rfl (k + 1)).1 rfl hnormal', hnext,
      updateSr_updateSr _ 3 3 (m := 3) rfl]
    rfl
  refine ⟨normal_of_normalized hnormal, hsteered.within, hshift, ?_, hnext, fun j => ?_⟩
  · rw [hreg, hframe _ (normReg_bounds inst).2]
  · induction j with
    | zero => rfl
    | succ j ih => rw [← Nat.add_assoc, norms_succ, ih, hfix]

/-- `NORM R0,A` -/
def normA : U32 := 0x01d815

theorem normA_dest : 0 = destOf normA := by decide

/-- `-1` in `A` -/
def minusOne : Dsp := withRegs [(regA2, 0xff), (regA1, 0xffffff), (regA0, 0xffffff)]

theorem minusOne_start :
    destOf 3 = destOf normA ∧ minusOne.scaling = 0 ∧ (minusOne.accu (destOf normA)).Within :=
  ⟨by decide, by decide, by decide⟩

theorem norm_done_minusOne : NormDone minusOne 3 normA 48 :=
  norm_done minusOne_start.1 minusOne_start.2.1 minusOne_start.2.2 (by decide)

/-- The last of 47 shifts of `-1` sets `C`, and the next `NORM` clears it. -/
theorem norm_clears_carry :
    minusOne.accuInt 0 = -1 ∧ ((minusOne.tst 3).norms normA 47).carry = true ∧
    ((minusOne.tst 3).norms normA 48).carry = false := by
  obtain ⟨-, hs, hd⟩ := minusOne_start
  have hstart : Steered (minusOne.tst 3) 0 := steered_tst hs hd
  have hvalue : (minusOne.tst 3).accuInt 0 = -1 := by decide +kernel
  have hiter : ∀ k v, ((normStep 46)^[k] (-1, 0)).1 = v →
      ((minusOne.tst 3).norms normA k).accuInt 0 = v := by
    intro k v hv
    have hrun := (norms_run hstart normA_dest k).2.1
    rw [hvalue] at hrun
    rw [← hv, ← hrun]
  have h46 := (norms_run hstart normA_dest 46).1
  have h47 := (norms_run hstart normA_dest 47).1
  have hpower := hiter 46 (-2 ^ 46) (by decide +kernel)
  have hpower' := hiter 47 (-2 ^ 47) (by decide +kernel)
  refine ⟨by decide +kernel, ?_, ?_⟩
  · rcases norm_cases h46 normA_dest with ⟨-, -, -, hnorm⟩ | ⟨hext, -, -⟩ | ⟨hnormal, -, -⟩
    · have hsign := sign_accu h46.within
      rw [norms_succ, hnorm, carry_finish, asl56]
      exact (getLsbD_statusBits _ _).1.trans (hsign.2 (by rw [hpower]; decide))
    · rw [hpower] at hext
      exact absurd hext (by decide)
    · rw [hpower] at hnormal
      exact absurd (hnormal.2 (by decide)) (by decide)
  · have hdone : ((minusOne.tst 3).norms normA 48) =
        ((minusOne.tst 3).norms normA 47).updateSr 3 0 := by
      rw [norms_succ,
        norm_of_normalized h47 normA_dest (by rw [hpower']; exact ⟨by decide, by decide⟩)]
    rw [hdone, carry, getLsbD_updateSr]
    simp

end Norm

end Aranym.Dsp
