/-
  The accumulators of the DSP as numbers of 56 bits.

  `Limbs.bits` puts the three limbs of an accumulator together.  On limbs within
  their widths the 56-bit operations are those of words of 56 bits, with the
  flags of the words.
-/
import Aranym.Dsp.Frame
import Aranym.Lib.FixedPoint

namespace Aranym.Dsp

open Lib
open BitVec hiding toNat_append

variable {x y source dest : Limbs}

/-! ## Words of 56 bits -/

/-- Bits 55..0 of an accumulator. -/
def Limbs.bits (x : Limbs) : BitVec 56 := x.hi.setWidth 8 ++ (x.mid.setWidth 24 ++ x.lo.setWidth 24)

theorem Limbs.Within.bounds (h : x.Within) :
    x.hi.toNat < 2 ^ 8 ∧ x.mid.toNat < 2 ^ 24 ∧ x.lo.toNat < 2 ^ 24 :=
  ⟨h.hi, h.mid, h.lo⟩

instance (x : Limbs) : Decidable x.Within :=
  decidable_of_iff (Fits 8 x.hi ∧ Fits 24 x.mid ∧ Fits 24 x.lo)
    ⟨fun ⟨h1, h2, h3⟩ => ⟨h1, h2, h3⟩, fun ⟨h1, h2, h3⟩ => ⟨h1, h2, h3⟩⟩

theorem Limbs.Within.toNat_bits (h : x.Within) :
    x.bits.toNat = x.hi.toNat * 2 ^ 48 + x.mid.toNat * 2 ^ 24 + x.lo.toNat := by
  obtain ⟨hhi, hmid, hlo⟩ := h.bounds
  have hcat : x.bits.toNat = _ := (toNat_append _ _).trans (congrArg _ (toNat_append _ _))
  rw [hcat, toNat_setWidth, toNat_setWidth, toNat_setWidth]
  omega

theorem toNat_bitAt (v : U32) (n : ℕ) : (bitAt v n).toNat = v.toNat / 2 ^ n % 2 := by
  rw [bitAt, toNat_and_low (n := 1) _ rfl, toNat_ushiftRight,
    Nat.shiftRight_eq_div_pow, Nat.pow_one]

theorem toNat_bitAt_lt (v : U32) (n : ℕ) : (bitAt v n).toNat < 2 := by
  rw [toNat_bitAt]
  omega

theorem getLsbD_eq_decide (v : U32) (n : ℕ) : v.getLsbD n = decide (v.toNat / 2 ^ n % 2 = 1) := by
  rw [BitVec.getLsbD, Nat.testBit_eq_decide_div_mod_eq]

theorem Limbs.Within.sign_eq (h : x.Within) : x.sign = x.bits.msb := by
  obtain ⟨hhi, hmid, hlo⟩ := h.bounds
  rw [Limbs.sign, getLsbD_eq_decide, msb_eq_decide, h.toNat_bits]
  exact decide_eq_decide.2 (by omega)

theorem Limbs.Within.lt_eq (hx : x.Within) (hy : y.Within) :
    x.lt y = decide (x.bits.toNat < y.bits.toNat) := by
  obtain ⟨-, hx1, hx2⟩ := hx.bounds
  obtain ⟨-, hy1, hy2⟩ := hy.bounds
  have hiff : x.lt y = true ↔ x.bits.toNat < y.bits.toNat := by
    rw [hx.toNat_bits, hy.toNat_bits]
    simp only [Limbs.lt, Bool.or_eq_true, Bool.and_eq_true, decide_eq_true_eq, lt_def, ← toNat_inj]
    omega
  rw [Bool.eq_iff_iff, hiff, decide_eq_true_eq]

variable {b a : U32}

/-! ## Limbs with a carry -/

theorem limb_add (ha : Fits 24 a) (hb : b.toNat ≤ 2 ^ 24) :
    ((a + b) &&& 0xffffff).toNat + 2 ^ 24 * (bitAt (a + b) 24).toNat = a.toNat + b.toNat := by
  have ha' : a.toNat < 2 ^ 24 := ha
  rw [toNat_and_low (n := 24) _ rfl, toNat_bitAt, toNat_add]
  omega

theorem limb_sub (ha : Fits 24 a) (hb : b.toNat ≤ 2 ^ 24) :
    ((a - b) &&& 0xffffff).toNat + b.toNat = a.toNat + 2 ^ 24 * (bitAt (a - b) 24).toNat := by
  have ha' : a.toNat < 2 ^ 24 := ha
  rw [toNat_and_low (n := 24) _ rfl, toNat_bitAt, toNat_sub]
  omega

theorem limb_add_top (a b : U32) :
    ∃ c, ((a + b) &&& 0xff).toNat + 2 ^ 8 * c = a.toNat + b.toNat := by
  refine ⟨(a.toNat + b.toNat) / 2 ^ 8, ?_⟩
  rw [toNat_and_low (n := 8) _ rfl, toNat_add]
  omega

theorem limb_sub_top (ha : Fits 8 a) (hb : b.toNat ≤ 2 ^ 8) :
    ∃ c, ((a - b) &&& 0xff).toNat + b.toNat = a.toNat + 2 ^ 8 * c := by
  have ha' : a.toNat < 2 ^ 8 := ha
  refine ⟨if a.toNat < b.toNat then 1 else 0, ?_⟩
  rw [toNat_and_low (n := 8) _ rfl, toNat_sub]
  split_ifs <;> omega

theorem toNat_add_bitAt (hb : Fits 24 b) (v : U32) (n : ℕ) :
    (b + bitAt v n).toNat = b.toNat + (bitAt v n).toNat := by
  have hb' : b.toNat < 2 ^ 24 := hb
  have hbit := toNat_bitAt_lt v n
  rw [toNat_add]
  omega

/-! ## Sums and differences -/

theorem bits_add56 (hs : source.Within) (hd : dest.Within) :
    (add56 source dest).1.bits = dest.bits + source.bits := by
  obtain ⟨hs0, hs1, hs2⟩ := hs.bounds
  have hbit := toNat_bitAt_lt (dest.lo + source.lo) 24
  have hcarry := toNat_add_bitAt hs.mid (dest.lo + source.lo) 24
  have hcarry' :=
    toNat_add_bitAt (hs.hi.mono (by decide))
      (dest.mid + (source.mid + bitAt (dest.lo + source.lo) 24)) 24
  have hlo := limb_add hd.lo hs2.le
  have hmid := limb_add (b := source.mid + bitAt (dest.lo + source.lo) 24) hd.mid (by omega)
  obtain ⟨c, hhi⟩ :=
    limb_add_top dest.hi
      (source.hi + bitAt (dest.mid + (source.mid + bitAt (dest.lo + source.lo) 24)) 24)
  have hr := (result_add56 source dest).within.toNat_bits
  have hlt := (add56 source dest).1.bits.isLt
  refine BitVec.eq_of_toNat_eq ?_
  rw [toNat_add, hs.toNat_bits, hd.toNat_bits]
  unfold add56 at hr hlt ⊢
  dsimp only at hr hlt ⊢
  omega

theorem bits_sub56 (hs : source.Within) (hd : dest.Within) :
    (sub56 source dest).1.bits = dest.bits - source.bits := by
  obtain ⟨hs0, hs1, hs2⟩ := hs.bounds
  have hbit := toNat_bitAt_lt (dest.lo - source.lo) 24
  have hbit' := toNat_bitAt_lt (dest.mid - (source.mid + bitAt (dest.lo - source.lo) 24)) 24
  have hborrow := toNat_add_bitAt hs.mid (dest.lo - source.lo) 24
  have hborrow' :=
    toNat_add_bitAt (hs.hi.mono (by decide))
      (dest.mid - (source.mid + bitAt (dest.lo - source.lo) 24)) 24
  have hlo := limb_sub hd.lo hs2.le
  have hmid := limb_sub (b := source.mid + bitAt (dest.lo - source.lo) 24) hd.mid (by omega)
  obtain ⟨c, hhi⟩ := limb_sub_top
    (b := source.hi + bitAt (dest.mid - (source.mid + bitAt (dest.lo - source.lo) 24)) 24)
      hd.hi (by omega)
  have hsum : (sub56 source dest).1.bits + source.bits = dest.bits := by
    refine BitVec.eq_of_toNat_eq ?_
    have hlt := dest.bits.isLt
    rw [toNat_add, hs.toNat_bits, (result_sub56 source dest).within.toNat_bits]
    rw [hd.toNat_bits] at hlt ⊢
    unfold sub56
    dsimp only
    omega
  rw [← hsum, BitVec.add_sub_cancel]

/-- `not_dest` of `dsp_add56`. -/
def Limbs.not (x : Limbs) : Limbs :=
  ⟨~~~ x.hi &&& 0xff, ~~~ x.mid &&& 0xffffff, ~~~ x.lo &&& 0xffffff⟩

theorem Limbs.within_not (x : Limbs) : x.not.Within := within_masked

theorem Limbs.Within.toNat_bits_not (h : x.Within) :
    x.not.bits.toNat = 2 ^ 56 - 1 - x.bits.toNat := by
  obtain ⟨hhi, hmid, hlo⟩ := h.bounds
  rw [x.within_not.toNat_bits, h.toNat_bits]
  unfold Limbs.not
  rw [toNat_and_low (n := 8) _ rfl, toNat_and_low (n := 24) _ rfl, toNat_and_low (n := 24) _ rfl]
  simp only [toNat_not]
  omega

theorem flags_add56 (hs : source.Within) (hd : dest.Within) : (add56 source dest).2 =
    statusBits (dest.bits.saddOverflow source.bits) (dest.bits.uaddOverflow source.bits) := by
  have hsign := (result_add56 source dest).within.sign_eq
  rw [bits_add56 hs hd] at hsign
  have hcarry : dest.not.lt source = dest.bits.uaddOverflow source.bits := by
    rw [dest.within_not.lt_eq hs, hd.toNat_bits_not, BitVec.uaddOverflow]
    exact decide_eq_decide.2 (by omega)
  have hover : ((source.sign ^^ (add56 source dest).1.sign) &&
    (dest.sign ^^ (add56 source dest).1.sign)) =
      dest.bits.saddOverflow source.bits := by
    rw [saddOverflow_eq, hsign, hs.sign_eq, hd.sign_eq]
    cases dest.bits.msb <;> cases source.bits.msb <;> cases (dest.bits + source.bits).msb <;> rfl
  rw [← hcarry, ← hover]
  rfl

theorem flags_sub56 (hs : source.Within) (hd : dest.Within) : (sub56 source dest).2 =
    statusBits (dest.bits.ssubOverflow source.bits) (dest.bits.usubOverflow source.bits) := by
  have hsign := (result_sub56 source dest).within.sign_eq
  rw [bits_sub56 hs hd] at hsign
  have hborrow : dest.lt source = dest.bits.usubOverflow source.bits := hd.lt_eq hs
  have hover : ((source.sign ^^ dest.sign) && ((sub56 source dest).1.sign ^^ dest.sign)) =
      dest.bits.ssubOverflow source.bits := by
    rw [ssubOverflow_eq, hsign, hs.sign_eq, hd.sign_eq]
    cases dest.bits.msb <;> cases source.bits.msb <;> cases (dest.bits - source.bits).msb <;> rfl
  rw [← hborrow, ← hover]
  rfl

/-! ## Shifts -/

/-- A limb is shifted to the left, with the highest bit of the next one. -/
theorem limb_shl {n : ℕ} (a b : U32) (ha : Fits 24 a) {m : U32} (hm : m.toNat = 2 ^ n - 1) :
    ((a <<< 1 ||| bitAt b 23) &&& m).toNat = (2 * a.toNat + b.toNat / 2 ^ 23 % 2) % 2 ^ n := by
  have ha' : a.toNat < 2 ^ 24 := ha
  have hshift : (a <<< 1).toNat = 2 * a.toNat := by
    rw [toNat_shiftLeft, Nat.shiftLeft_eq]
    omega
  have hor : (a <<< 1 ||| bitAt b 23).toNat = 2 * a.toNat + b.toNat / 2 ^ 23 % 2 := by
    have hbit : (bitAt b 23).toNat < 2 ^ 1 := toNat_bitAt_lt b 23
    rw [toNat_or, hshift, Nat.mul_comm, ← Nat.pow_one 2, ← Nat.shiftLeft_eq,
      ← Nat.shiftLeft_add_eq_or_of_lt hbit, Nat.shiftLeft_eq, toNat_bitAt]
  rw [toNat_and_low _ hm, hor]

theorem limb_shr (a b : U32) (hb : Fits 24 b) :
    ((b >>> 1 &&& 0x7fffff#32) ||| (a &&& 1) <<< 23).toNat =
      b.toNat / 2 + a.toNat % 2 * 2 ^ 23 := by
  have hb' : b.toNat < 2 ^ 24 := hb
  have hlow : (b >>> 1 &&& 0x7fffff#32).toNat = b.toNat / 2 := by
    rw [toNat_and_low (n := 23) _ rfl, toNat_ushiftRight, Nat.shiftRight_eq_div_pow]
    omega
  have hhigh : ((a &&& 1) <<< 23).toNat = (a.toNat % 2) <<< 23 := by
    rw [toNat_shiftLeft, toNat_and_low (n := 1) _ rfl, Nat.shiftLeft_eq, Nat.shiftLeft_eq]
    omega
  rw [toNat_or, hlow, hhigh, Nat.or_comm, ← Nat.shiftLeft_add_eq_or_of_lt (by omega),
    Nat.shiftLeft_eq]
  omega

theorem bits_asl56 (h : x.Within) : (asl56 x).1.bits = x.bits <<< 1 := by
  have hlo : (x.lo <<< 1 &&& 0xffffff).toNat = 2 * x.lo.toNat % 2 ^ 24 := by
    rw [toNat_and_low (n := 24) _ rfl, toNat_shiftLeft, Nat.shiftLeft_eq]
    omega
  obtain ⟨hhi', hmid', hlo'⟩ := h.bounds
  refine BitVec.eq_of_toNat_eq ?_
  rw [toNat_shiftLeft, (result_asl56 x).within.toNat_bits, h.toNat_bits, Nat.shiftLeft_eq]
  unfold asl56
  rw [limb_shl (n := 8) _ _ (h.hi.mono (by decide)) rfl, limb_shl (n := 24) _ _ h.mid rfl, hlo]
  omega

theorem limb_asr_top (a : U32) (ha : Fits 8 a) :
    (a >>> 1 &&& (0x7f : U32) ||| (a >>> 1 &&& (0x7f : U32) &&& 0x40) <<< 1).toNat =
      a.toNat / 2 + a.toNat / 2 ^ 7 * 2 ^ 7 := by
  have hall : ∀ n < 2 ^ 8, (BitVec.ofNat 32 n >>> 1 &&& (0x7f : U32) |||
      (BitVec.ofNat 32 n >>> 1 &&& (0x7f : U32) &&& 0x40) <<< 1).toNat =
        n / 2 + n / 2 ^ 7 * 2 ^ 7 := by
    decide +kernel
  have h := hall a.toNat ha
  rwa [ofNat_toNat, setWidth_eq] at h

theorem bits_asr56 (h : x.Within) : (asr56 x).1.bits = x.bits.sshiftRight 1 := by
  obtain ⟨hhi', hmid', hlo'⟩ := h.bounds
  refine BitVec.eq_of_toNat_eq ?_
  rw [toNat_sshiftRight, msb_eq_decide, (result_asr56 x).within.toNat_bits, h.toNat_bits,
    Nat.shiftRight_eq_div_pow, Nat.shiftRight_eq_div_pow]
  unfold asr56
  rw [limb_asr_top _ h.hi, limb_shr _ _ h.mid, limb_shr _ _ h.lo]
  simp only [decide_eq_true_eq]
  split_ifs <;> omega

theorem flags_asr56 (x : Limbs) : (asr56 x).2 = statusBits false (x.lo.getLsbD 0) := rfl

/-! ## Numbers -/

/-- The limbs are within their widths and represent `v` modulo `2 ^ 56`. -/
structure Limbs.Represents (x : Limbs) (v : ℤ) : Prop where
  within : x.Within
  bits : x.bits = BitVec.ofInt 56 v

theorem Limbs.Within.represents (h : x.Within) : x.Represents x.bits.toInt :=
  ⟨h, BitVec.ofInt_toInt.symm⟩

theorem represents_zero : Limbs.zero.Represents 0 := ⟨by decide, by decide⟩

section Represents

variable {u v : ℤ}

theorem represents_add56 (hs : source.Represents u) (hd : dest.Represents v) :
    (add56 source dest).1.Represents (v + u) := by
  refine ⟨(result_add56 source dest).within, ?_⟩
  rw [bits_add56 hs.within hd.within, hs.bits, hd.bits, ofInt_add]

theorem represents_sub56 (hs : source.Represents u) (hd : dest.Represents v) :
    (sub56 source dest).1.Represents (v - u) := by
  refine ⟨(result_sub56 source dest).within, ?_⟩
  rw [bits_sub56 hs.within hd.within, hs.bits, hd.bits, BitVec.sub_eq_iff_eq_add, ← ofInt_add,
    Int.sub_add_cancel]

theorem represents_asl56 (h : x.Represents v) : (asl56 x).1.Represents (2 * v) := by
  refine ⟨(result_asl56 x).within, ?_⟩
  rw [bits_asl56 h.within, h.bits, shiftLeft_eq_mul_twoPow, Int.mul_comm, ofInt_mul]
  rfl

end Represents

/-! ## The status register -/

section Status

variable {d : Dsp} {n : ℕ}

/-- The bit `C`. -/
def carry (d : Dsp) : Bool := (d.reg regSR).getLsbD 0

/-- The bit `V`. -/
def overflow (d : Dsp) : Bool := (d.reg regSR).getLsbD 1

theorem getLsbD_updateSr (d : Dsp) (clear set : U32) (i : ℕ) :
    ((d.updateSr clear set).reg regSR).getLsbD i =
    ((d.reg regSR).getLsbD i && (0xffff - clear).getLsbD i || set.getLsbD i) := by
  rw [updateSr, reg_setReg_self, getLsbD_or, getLsbD_and]

variable {r : ℕ}

theorem reg_updateSr (hr : r ≠ regSR) (d : Dsp) (clear set : U32) :
    (d.updateSr clear set).reg r = d.reg r := reg_setReg_of_ne d hr _

theorem reg_ccr (hr : r ≠ regSR) (d : Dsp) (x : Limbs) : (d.ccr x).reg r = d.reg r := by
  rw [ccr, ccrZero, reg_updateSr hr, ccrNegative, reg_updateSr hr]
  have hext : (d.ccrExtension x.hi x.mid).reg r = d.reg r := by
    unfold ccrExtension
    split
    · rfl
    · exact reg_updateSr hr _ _ _
  unfold ccrUnnormalized
  dsimp only
  split
  · exact hext
  · rw [reg_updateSr hr]
    exact hext

theorem accu_congr {d' : Dsp} (hn : n < 2) (h : ∀ r ≠ regSR, d'.reg r = d.reg r) :
    d'.accu n = d.accu n := by
  have hne : ∀ r < regSR, d'.reg r = d.reg r := fun r hr => h r (by omega)
  unfold accu
  rw [hne _ (by simp only [regA2, regSR]; omega), hne _ (by simp only [regA1, regSR]; omega),
    hne _ (by simp only [regA0, regSR]; omega)]

theorem accu_setAccu (d : Dsp) (n : ℕ) (x : Limbs) : (d.setAccu n x).accu n = x := by
  have h21 : regA2 + n ≠ regA1 + n := by simp only [regA1, regA2]; omega
  have h20 : regA2 + n ≠ regA0 + n := by simp only [regA0, regA2]; omega
  have h10 : regA1 + n ≠ regA0 + n := by simp only [regA0, regA1]; omega
  unfold accu setAccu
  rw [reg_setReg_of_ne _ h20, reg_setReg_of_ne _ h21, reg_setReg_self, reg_setReg_of_ne _ h10,
    reg_setReg_self, reg_setReg_self]

theorem reg_setAccu (hn : n < 2) (hr : r < regA0 ∨ regA ≤ r) (x : Limbs) :
    (d.setAccu n x).reg r = d.reg r := by
  unfold setAccu
  simp only [regA0, regA] at hr
  rw [reg_setReg_of_ne _ (by rw [regA0]; omega), reg_setReg_of_ne _ (by rw [regA1]; omega),
    reg_setReg_of_ne _ (by rw [regA2]; omega)]

/-- The accumulator as a number. -/
def accuInt (d : Dsp) (n : ℕ) : ℤ := (d.accu n).bits.toInt

theorem sign_accu (h : (d.accu n).Within) : (d.accu n).sign = true ↔ d.accuInt n < 0 := by
  rw [h.sign_eq, msb_eq_toInt, decide_eq_true_eq, accuInt]

theorem accu_finish (hn : n < 2) (d : Dsp) (x : Limbs) (newsr : U32) :
    (d.finish n x newsr).accu n = x :=
  (accu_congr hn fun _ hr => (reg_updateSr hr _ _ _).trans (reg_ccr hr _ _)).trans
    (accu_setAccu d n x)

theorem accu_finishMul (hn : n < 2) (d : Dsp) (x : Limbs) (newsr : U32) :
    (d.finishMul n x newsr).accu n = x :=
  (accu_congr hn fun _ hr => (reg_updateSr hr _ _ _).trans (reg_ccr hr _ _)).trans
    (accu_setAccu d n x)

section
variable (d : Dsp) (n : ℕ) (x : Limbs) (newsr : U32)

theorem carry_finish : (d.finish n x newsr).carry = newsr.getLsbD 0 := by
  rw [carry, finish, getLsbD_updateSr]
  simp

theorem overflow_finish : (d.finish n x newsr).overflow = newsr.getLsbD 1 := by
  rw [overflow, finish, getLsbD_updateSr]
  simp

theorem overflow_finishMul : (d.finishMul n x newsr).overflow = newsr.getLsbD 1 := by
  rw [overflow, finishMul, getLsbD_updateSr]
  simp

end

theorem getLsbD_statusBits (overflow carry : Bool) :
    (statusBits overflow carry).getLsbD 0 = carry ∧
    (statusBits overflow carry).getLsbD 1 = overflow := by
  cases overflow <;> cases carry <;> decide

end Status

/-! ## Flags of two operations -/

section TwoSteps

variable {d : Dsp} {inst : U32}

/-- The accumulator that the instruction changes, and the other one. -/
def destBits (d : Dsp) (inst : U32) : BitVec 56 := (d.accu (destOf inst)).bits

/-- The other accumulator. -/
def otherBits (d : Dsp) (inst : U32) : BitVec 56 := (d.accu (1 - destOf inst)).bits

/-- `X` or `Y`, with its sign extended. -/
def longBits (d : Dsp) (inst : U32) : BitVec 56 := (d.sourceLong inst).bits

/-- The accumulators and the source are of 56 bits. -/
structure Within56 (d : Dsp) (inst : U32) : Prop where
  a : (d.accu 0).Within
  b : (d.accu 1).Within
  long : (d.sourceLong inst).Within

theorem Within56.accu (h : Within56 d inst) {n : ℕ} (hn : n < 2) : (d.accu n).Within := by
  rcases (by omega : n = 0 ∨ n = 1) with rfl | rfl
  · exact h.a
  · exact h.b

theorem within_one : Limbs.Within ⟨0, 0, 1⟩ := by decide

theorem bits_one : Limbs.bits ⟨0, 0, 1⟩ = 1 := by decide

/-- The flags of `adc` and `sbc`: the second operation is done for a carry only. -/
theorem flags_withCarry {op : Limbs → Limbs → Limbs × U32} {f : BitVec 56 → BitVec 56 → BitVec 56}
    {v c : BitVec 56 → BitVec 56 → Bool} (hop : ∀ x y, Result (op x y))
    (hbits : ∀ x y : Limbs, x.Within → y.Within → (op x y).1.bits = f y.bits x.bits)
    (hflags : ∀ x y : Limbs, x.Within → y.Within →
      (op x y).2 = statusBits (v y.bits x.bits) (c y.bits x.bits))
    (h : Within56 d inst) :
    (d.withCarry op inst).overflow = (v (d.destBits inst) (d.longBits inst) ||
      d.carry && v (f (d.destBits inst) (d.longBits inst)) 1) ∧
    (d.withCarry op inst).carry = (c (d.destBits inst) (d.longBits inst) ||
      d.carry && c (f (d.destBits inst) (d.longBits inst)) 1) := by
  have hdest := h.accu (destOf_lt inst)
  have h1 := hflags _ _ h.long hdest
  have h2 := hflags _ _ within_one (hop (d.sourceLong inst) (d.accu (destOf inst))).within
  rw [hbits _ _ h.long hdest, bits_one] at h2
  unfold withCarry
  dsimp only
  split_ifs with hc
  · have hcarry : d.carry = true := hc
    rw [overflow_finish, carry_finish, h1, h2, getLsbD_or, getLsbD_or, (getLsbD_statusBits _ _).1,
      (getLsbD_statusBits _ _).2, (getLsbD_statusBits _ _).1, (getLsbD_statusBits _ _).2, hcarry]
    exact ⟨rfl, rfl⟩
  · have hcarry : d.carry = false := Bool.eq_false_of_not_eq_true hc
    rw [overflow_finish, carry_finish, h1, (getLsbD_statusBits _ _).1,
      (getLsbD_statusBits _ _).2, hcarry]
    simp [destBits, longBits]

/-- The carry of `addr` and `subr`: the bit that is shifted out is a carry too. -/
theorem carry_shiftOp {op : Limbs → Limbs → Limbs × U32} {v c : BitVec 56 → BitVec 56 → Bool}
    (hflags : ∀ x y : Limbs, x.Within → y.Within →
      (op x y).2 = statusBits (v y.bits x.bits) (c y.bits x.bits))
    (h : Within56 d inst) : (d.shiftOp asr56 op inst).carry =
      ((d.accu (destOf inst)).lo.getLsbD 0 ||
        c ((d.destBits inst).sshiftRight 1) (d.otherBits inst)) := by
  have hdest := h.accu (destOf_lt inst)
  have hother := h.accu (by omega : 1 - destOf inst < 2)
  have hop := hflags _ _ hother (result_asr56 (d.accu (destOf inst))).within
  rw [bits_asr56 hdest] at hop
  unfold shiftOp
  rw [carry_finish, hop, flags_asr56, getLsbD_or, (getLsbD_statusBits _ _).1,
    (getLsbD_statusBits _ _).1]
  rfl

/-- What the flags should be after the four instructions. -/
structure FlagsExact (d : Dsp) (inst : U32) : Prop where
  adcV : (d.adc inst).overflow = true ↔
    OutOf 56 ((d.destBits inst).toInt + (d.longBits inst).toInt + d.carry.toInt)
  adcC : (d.adc inst).carry = true ↔
    2 ^ 56 ≤ (d.destBits inst).toNat + (d.longBits inst).toNat + d.carry.toNat
  sbcV : (d.sbc inst).overflow = true ↔
    OutOf 56 ((d.destBits inst).toInt - (d.longBits inst).toInt - d.carry.toInt)
  sbcC : (d.sbc inst).carry = true ↔
    (d.destBits inst).toNat < (d.longBits inst).toNat + d.carry.toNat
  addrC : (d.addr inst).carry = true ↔
    2 ^ 56 ≤ ((d.destBits inst).sshiftRight 1).toNat + (d.otherBits inst).toNat
  subrC : (d.subr inst).carry = true ↔
    ((d.destBits inst).sshiftRight 1).toNat < (d.otherBits inst).toNat

/-- When the flags of the two operations do not get in each other's way. -/
structure FlagsKept (d : Dsp) (inst : U32) : Prop where
  /-- the first sum does not overflow by one only -/
  adc : d.carry = true → (d.destBits inst).toInt + (d.longBits inst).toInt ≠ -2 ^ 55 - 1
  sbc : d.carry = true → (d.destBits inst).toInt - (d.longBits inst).toInt ≠ 2 ^ 55
  /-- the bit that is shifted out is 0, or there is a carry anyway -/
  addr : (d.accu (destOf inst)).lo.getLsbD 0 = true →
    2 ^ 56 ≤ ((d.destBits inst).sshiftRight 1).toNat + (d.otherBits inst).toNat
  subr : (d.accu (destOf inst)).lo.getLsbD 0 = true →
    ((d.destBits inst).sshiftRight 1).toNat < (d.otherBits inst).toNat

theorem adc_exact (h : Within56 d inst) :
    (((d.adc inst).overflow = true ↔
      OutOf 56 ((d.destBits inst).toInt + (d.longBits inst).toInt + d.carry.toInt)) ↔
      (d.carry = true → (d.destBits inst).toInt + (d.longBits inst).toInt ≠ -2 ^ 55 - 1)) ∧
    ((d.adc inst).carry = true ↔
      2 ^ 56 ≤ (d.destBits inst).toNat + (d.longBits inst).toNat + d.carry.toNat) := by
  obtain ⟨hv, hc⟩ := flags_withCarry result_add56 (fun _ _ => bits_add56) (fun _ _ => flags_add56) h
  rw [adc, hv, hc]
  cases d.carry with
  | false => simp [saddOverflow_iff, BitVec.uaddOverflow]
  | true =>
    have hcarry := uaddOverflow_carry (by decide) (d.destBits inst) (d.longBits inst)
    have hover := saddOverflow_carry_iff (by decide) (d.destBits inst) (d.longBits inst)
    exact ⟨hover.trans ⟨fun hne _ => hne, fun hne => hne rfl⟩, hcarry⟩

theorem sbc_exact (h : Within56 d inst) :
    (((d.sbc inst).overflow = true ↔
      OutOf 56 ((d.destBits inst).toInt - (d.longBits inst).toInt - d.carry.toInt)) ↔
      (d.carry = true → (d.destBits inst).toInt - (d.longBits inst).toInt ≠ 2 ^ 55)) ∧
    ((d.sbc inst).carry = true ↔
      (d.destBits inst).toNat < (d.longBits inst).toNat + d.carry.toNat) := by
  obtain ⟨hv, hc⟩ := flags_withCarry result_sub56 (fun _ _ => bits_sub56) (fun _ _ => flags_sub56) h
  rw [sbc, hv, hc]
  cases d.carry with
  | false => simp [ssubOverflow_iff, BitVec.usubOverflow]
  | true =>
    have hborrow := usubOverflow_borrow (by decide) (d.destBits inst) (d.longBits inst)
    have hover := ssubOverflow_borrow_iff (by decide) (d.destBits inst) (d.longBits inst)
    exact ⟨hover.trans ⟨fun hne _ => hne, fun hne => hne rfl⟩, hborrow⟩

/-- A flag with another one in it is exact if the other one implies it. -/
theorem or_iff_exact {a b : Bool} {P : Prop} (hb : b = true ↔ P) :
    ((a || b) = true ↔ P) ↔ (a = true → P) := by
  rw [Bool.or_eq_true, hb]
  exact or_iff_right_iff_imp

theorem addr_exact (h : Within56 d inst) : ((d.addr inst).carry = true ↔
      2 ^ 56 ≤ ((d.destBits inst).sshiftRight 1).toNat + (d.otherBits inst).toNat) ↔
    ((d.accu (destOf inst)).lo.getLsbD 0 = true →
      2 ^ 56 ≤ ((d.destBits inst).sshiftRight 1).toNat + (d.otherBits inst).toNat) := by
  rw [addr, carry_shiftOp (fun _ _ => flags_add56) h]
  exact or_iff_exact (by simp [BitVec.uaddOverflow])

theorem subr_exact (h : Within56 d inst) : ((d.subr inst).carry = true ↔
      ((d.destBits inst).sshiftRight 1).toNat < (d.otherBits inst).toNat) ↔
    ((d.accu (destOf inst)).lo.getLsbD 0 = true →
      ((d.destBits inst).sshiftRight 1).toNat < (d.otherBits inst).toNat) := by
  rw [subr, carry_shiftOp (fun _ _ => flags_sub56) h]
  exact or_iff_exact (by simp [BitVec.usubOverflow])

/-- **Two-step arithmetic.**  The flags of `ADC`, `SBC`, `ADDR` and `SUBR` are those of the exact
    results if and only if no overflow of the first step is undone by the second one, and no bit is
    shifted out into the carry. -/
theorem flags_exact_iff (h : Within56 d inst) : FlagsExact d inst ↔ FlagsKept d inst := by
  obtain ⟨hadcV, hadcC⟩ := adc_exact h
  obtain ⟨hsbcV, hsbcC⟩ := sbc_exact h
  constructor
  · rintro ⟨h1, -, h3, -, h5, h6⟩
    exact ⟨hadcV.1 h1, hsbcV.1 h3, (addr_exact h).1 h5, (subr_exact h).1 h6⟩
  · rintro ⟨h1, h2, h3, h4⟩
    exact ⟨hadcV.2 h1, hadcC, hsbcV.2 h2, hsbcC, (addr_exact h).2 h3, (subr_exact h).2 h4⟩

/-- A state with some registers set. -/
def withRegs (rs : List (ℕ × U32)) : Dsp := rs.foldl (fun d r => d.setReg r.1 r.2) default

/-- `ADC X,A` and its like for `A` = 6 and `X` = 3, with a carry. -/
theorem flags_six_three : FlagsExact (withRegs [(regA0, 6), (regX0, 3), (regSR, 1)]) 0x21 :=
  (flags_exact_iff ⟨by decide, by decide, by decide⟩).2 ⟨fun _ => by decide +kernel,
    fun _ => by decide +kernel,
    fun h => absurd h (by decide +kernel), fun h => absurd h (by decide +kernel)⟩

/-- The least number, plus `-1`, plus a carry is the least number again: `ADC X,A` sets `V`.  And
    half of 1 is 0: `ADDR B,A` with 0 in `B` sets `C`. -/
theorem flags_not_exact :
    (Within56 (withRegs [(regA2, 0x80), (regX1, 0xffffff), (regX0, 0xffffff), (regSR, 1)]) 0x21 ∧
      ¬ FlagsExact
        (withRegs [(regA2, 0x80), (regX1, 0xffffff), (regX0, 0xffffff), (regSR, 1)]) 0x21) ∧
    Within56 (withRegs [(regA0, 1)]) 0x02 ∧ ¬ FlagsExact (withRegs [(regA0, 1)]) 0x02 := by
  refine ⟨⟨⟨by decide, by decide, by decide⟩, fun h => ?_⟩,
    ⟨by decide, by decide, by decide⟩, fun h => ?_⟩
  · exact absurd (h.adcV.1 (by decide +kernel)) (by decide +kernel)
  · exact absurd (h.addrC.1 (by decide +kernel)) (by decide +kernel)

end TwoSteps

end Aranym.Dsp
