/-
  The long divisions and multiplications (`newcpu.cpp`), built without 64-bit host integers.

  `div_unsigned` leaves the caller's `quot` and `rem` as they are if the quotient has more than
  32 bits.  They have not been set before, so their values are a parameter here (`Unset`).  A
  negation of a host integer wraps around.
-/
import Aranym.Cpu.LongArithmetic
import Aranym.Lib.FixedPoint

namespace Aranym.LongArith

open Lib
open BitVec hiding not_not toNat_append

namespace Portable

/-! ## The model -/

/-- The variables of the loop of `div_unsigned`. -/
structure Division where
  q : U32
  srcHi : U32
  srcLo : U32

/-- The body of the loop. -/
def divStep (div : U32) (v : Division) : Division :=
  let cbit := v.srcHi &&& 0x80000000
  let srcHi := v.srcHi <<< 1
  let srcHi := if v.srcLo &&& 0x80000000 ≠ 0 then srcHi + 1 else srcHi
  let srcLo := v.srcLo <<< 1
  let q := v.q <<< 1
  if cbit ≠ 0 ∨ div ≤ srcHi then ⟨q ||| 1, srcHi - div, srcLo⟩ else ⟨q, srcHi, srcLo⟩

/-- `div_unsigned`: the quotient and the remainder, `none` if it returns 1. -/
def divUnsigned (srcHi srcLo div : U32) : Option (U32 × U32) :=
  if div ≤ srcHi then none
  else
    let v := (divStep div)^[32] ⟨0, srcHi, srcLo⟩
    some (v.q, v.srcHi)

/-- `x & 0xffff` -/
def lowHalf (x : U32) : U32 := x &&& 0xffff

/-- `(x >> 16) & 0xffff` -/
def highHalf (x : U32) : U32 := x >>> 16 &&& 0xffff

/-- The sum of the four products in `mul_unsigned`. -/
def addParts (r0 r1 r2 r3 : U32) : U32 × U32 :=
  let lo := r0 + (r1 <<< 16 &&& 0xffff0000)
  let r3 := if lo < r0 then r3 + 1 else r3
  let r0 := lo
  let lo := r0 + (r2 <<< 16 &&& 0xffff0000)
  let r3 := if lo < r0 then r3 + 1 else r3
  let r3 := r3 + (highHalf r1 + highHalf r2)
  (r3, lo)

/-- `mul_unsigned`: the upper and the lower half of the product. -/
def mulUnsigned (src1 src2 : U32) : U32 × U32 :=
  addParts (lowHalf src1 * lowHalf src2) (highHalf src1 * lowHalf src2)
    (lowHalf src1 * highHalf src2) (highHalf src1 * highHalf src2)

/-- `hi = ~hi; lo = -lo; if (lo == 0) hi++;` -/
def negate (hi lo : U32) : U32 × U32 :=
  (if -lo = 0 then ~~~hi + 1 else ~~~hi, -lo)

/-- `if (x < 0) x = -x;` -/
def absWord (x : U32) : U32 := if x.slt 0 then -x else x

/-- The same for a double word. -/
def absPair (hi lo : U32) : U32 × U32 := if hi.slt 0 then negate hi lo else (hi, lo)

/-- The values that `quot` and `rem` have before they are set. -/
structure Unset where
  quot : U32
  rem : U32

/-- `hi` of the signed variant. -/
def signedHigh (s : Regs) (extra : U16) : U32 :=
  if extra &&& 0x400 ≠ 0 then s.dreg (remReg extra)
    else if (s.dreg (quotReg extra)).slt 0 then -1 else 0

/-- `hi` of the unsigned variant. -/
def unsignedHigh (s : Regs) (extra : U16) : U32 :=
  if extra &&& 0x400 ≠ 0 then s.dreg (remReg extra) else 0

/-- The test of the signed variant, which the compiler reads as
    `(overflow || (sign & 0x80000000)) ? quot > 0x80000000 : quot > 0x7fffffff`. -/
def tooLarge (overflow : Bool) (sign quot : U32) : Bool :=
  if overflow = true ∨ sign &&& 0x80000000 ≠ 0 then decide (0x80000000 < quot)
    else decide (0x7fffffff < quot)

/-- Without 64-bit integers. -/
def m68kDivl (u : Unset) (s : Regs) (src : U32) (extra : U16) : Outcome :=
  if src = 0 then .exception
  else if extra &&& 0x800 ≠ 0 then
    let lo := s.dreg (quotReg extra)
    let saveHigh := signedHigh s extra
    let sign := saveHigh ^^^ src
    let a := absPair saveHigh lo
    let v := divUnsigned a.1 a.2 (absWord src)
    let quot := (v.getD (u.quot, u.rem)).1
    let rem := (v.getD (u.quot, u.rem)).2
    if tooLarge v.isNone sign quot then .done s.overflow
    else
      let quot := if sign &&& 0x80000000 ≠ 0 then -quot else quot
      let rem := if rem.slt 0 ≠ saveHigh.slt 0 then -rem else rem
      .done (s.divided extra quot rem)
  else
    match divUnsigned (unsignedHigh s extra) (s.dreg (quotReg extra)) src with
    | none => .done s.overflow
    | some (quot, rem) => .done (s.divided extra quot rem)

/-- `dst_hi` and `dst_lo` of the signed variant. -/
def signedProduct (x y : U32) : U32 × U32 :=
  if (x ^^^ y) &&& 0x80000000 ≠ 0 then
    negate (mulUnsigned (absWord x) (absWord y)).1 (mulUnsigned (absWord x) (absWord y)).2
  else mulUnsigned (absWord x) (absWord y)

/-- Without 64-bit integers. -/
def m68kMull (s : Regs) (src : U32) (extra : U16) : Regs :=
  if extra &&& 0x800 ≠ 0 then
    let dst := signedProduct src (s.dreg (quotReg extra))
    s.multiplied extra dst.1 dst.2 (dst.1.slt 0) (dst.1 == 0 && dst.2 == 0)
      (decide ((dst.1 ≠ 0 ∨ dst.2 &&& 0x80000000 ≠ 0) ∧
        (dst.1 &&& 0xffffffff ≠ 0xffffffff ∨ dst.2 &&& 0x80000000 ≠ 0x80000000)))
  else
    let dst := mulUnsigned src (s.dreg (quotReg extra))
    s.multiplied extra dst.1 dst.2 (dst.1.slt 0) (dst.1 == 0 && dst.2 == 0) (decide (dst.1 ≠ 0))

variable {u : Unset} {s : Regs} {src : U32} {extra : U16}

/-! ## Signs -/

section

variable (x : U32)

theorem toNat_and_sign : (x &&& 0x80000000).toNat = x.toNat / 2 ^ 31 * 2 ^ 31 :=
  toNat_and_high (n := 32) (k := 31) x.isLt (by decide)

theorem and_sign_ne_zero_iff : x &&& 0x80000000 ≠ 0 ↔ 2 ^ 31 ≤ x.toNat := by
  rw [Ne, ← toNat_inj, toNat_and_sign]
  show ¬ _ = 0 ↔ _
  omega

theorem slt_zero_iff : x.slt 0 = true ↔ 2 ^ 31 ≤ x.toNat := by
  have hx := x.isLt
  rw [slt_iff_toInt_lt, toInt_eq_toNat_cond]
  show _ < (0 : ℤ) ↔ _
  split <;> omega

theorem xor_sign_iff (x y : U32) :
    (x ^^^ y) &&& 0x80000000 ≠ 0 ↔ ¬ (x.toInt < 0 ↔ y.toInt < 0) := by
  have hmsb : 2 ^ 31 ≤ (x ^^^ y).toNat ↔ (x ^^^ y).msb = true := by
    rw [msb_eq_decide, decide_eq_true_iff]
  rw [and_sign_ne_zero_iff, hmsb, msb_xor, msb_eq_toInt, msb_eq_toInt]
  by_cases hx : x.toInt < 0 <;> by_cases hy : y.toInt < 0 <;> simp [hx, hy]

theorem toNat_absWord : (absWord x).toNat = x.toInt.natAbs := by
  have hx := x.isLt
  rw [toInt_eq_toNat_cond, absWord]
  split
  next h =>
    have := (slt_zero_iff x).1 h
    rw [toNat_neg]
    split <;> omega
  next h =>
    have := mt (slt_zero_iff x).2 h
    split <;> omega

theorem append_negate (hi lo : U32) :
    (negate hi lo).1 ++ (negate hi lo).2 = -(hi ++ lo : BitVec 64) := by
  apply BitVec.eq_of_toNat_eq
  have hhi := hi.isLt
  have hlo := lo.isLt
  have hzero : -lo = 0 ↔ lo.toNat = 0 := by
    rw [← toNat_inj, toNat_neg]
    show _ = 0 ↔ _
    omega
  rw [toNat_append, toNat_neg, toNat_append, negate]
  dsimp only
  split
  next h =>
    rw [toNat_add, toNat_not, toNat_neg, hzero.1 h]
    show (_ + 1) % _ * _ + _ = _
    omega
  next h =>
    rw [toNat_not, toNat_neg]
    have := mt hzero.2 h
    omega

theorem slt_append (hi lo : U32) : (hi ++ lo : BitVec 64).slt 0 = hi.slt 0 := by
  have hhi := hi.isLt
  have hlo := lo.isLt
  rw [Bool.eq_iff_iff, slt_zero_iff, slt_iff_toInt_lt, toInt_eq_toNat_cond, toNat_append]
  show _ < (0 : ℤ) ↔ _
  split <;> omega

theorem slt_zero_iff_append (hi lo : U32) : hi.slt 0 = true ↔ (hi ++ lo : BitVec 64).toInt < 0 := by
  rw [← slt_append hi lo, slt_iff_toInt_lt]
  exact Iff.rfl

theorem toNat_absPair (hi lo : U32) :
    ((absPair hi lo).1 ++ (absPair hi lo).2 : BitVec 64).toNat =
      (hi ++ lo : BitVec 64).toInt.natAbs := by
  have hlt := (hi ++ lo : BitVec 64).isLt
  have hneg := slt_zero_iff_append hi lo
  rw [toInt_eq_toNat_cond] at hneg ⊢
  rw [absPair]
  split
  next h =>
    have := hneg.1 h
    rw [append_negate, toNat_neg]
    omega
  next h =>
    have := mt hneg.2 h
    dsimp only
    omega

/-! ## The loop of `div_unsigned` -/

theorem toNat_shiftLeft_one : (x <<< 1).toNat = 2 * x.toNat % 2 ^ 32 := by
  rw [toNat_shiftLeft, Nat.shiftLeft_eq]
  omega

theorem toNat_shiftLeft_or_one : (x <<< 1 ||| 1).toNat = 2 * x.toNat % 2 ^ 32 + 1 := by
  have heven : 2 * x.toNat % 2 ^ 32 = (x.toNat % 2 ^ 31) <<< 1 := by
    rw [Nat.shiftLeft_eq]
    omega
  rw [toNat_or, toNat_shiftLeft_one, heven, Nat.shiftLeft_add_eq_or_of_lt (by decide)]
  rfl

theorem toNat_shifted (hi lo : U32) :
    (if lo &&& 0x80000000 ≠ 0 then hi <<< 1 + 1 else hi <<< 1).toNat =
      (2 * hi.toNat + lo.toNat / 2 ^ 31) % 2 ^ 32 := by
  have hlo := lo.isLt
  split
  next h =>
    have := (and_sign_ne_zero_iff lo).1 h
    rw [toNat_add, toNat_shiftLeft_one]
    show (_ + 1) % _ = _
    omega
  next h =>
    have := mt (and_sign_ne_zero_iff lo).2 h
    rw [toNat_shiftLeft_one]
    omega

/-- The part of a division that `v` holds. -/
def Divided (div : U32) (n i : ℕ) (v : Division) : Prop :=
  LongDivision (2 ^ 32) div.toNat n i v.srcHi.toNat v.srcLo.toNat v.q.toNat

theorem divided_divStep {div : U32} {n i : ℕ} {v : Division} (h : Divided div n i v) (hi : i < 32) :
    Divided div n (i + 1) (divStep div v) := by
  have hdiv := div.isLt
  have hlo := v.srcLo.isLt
  have hq : v.q.toNat < 2 ^ 31 :=
    lt_of_lt_of_le h.quot_lt (Nat.pow_le_pow_right (by decide) (by omega))
  have hshift : (2 * v.srcHi.toNat + v.srcLo.toNat / 2 ^ 31) * 2 ^ 32 + 2 * v.srcLo.toNat % 2 ^ 32 =
      2 * (v.srcHi.toNat * 2 ^ 32 + v.srcLo.toNat) := by omega
  have hlt := h.doubled_lt hshift
  have hw := toNat_shifted v.srcHi v.srcLo
  unfold divStep
  dsimp only
  generalize (if v.srcLo &&& 0x80000000 ≠ 0 then v.srcHi <<< 1 + 1 else v.srcHi <<< 1) = w at hw ⊢
  -- the bit that the shift loses makes the upper word larger than the divisor
  have hcond : v.srcHi &&& 0x80000000 ≠ 0 ∨ div ≤ w ↔
      div.toNat ≤ 2 * v.srcHi.toNat + v.srcLo.toNat / 2 ^ 31 := by
    rw [and_sign_ne_zero_iff, le_def, hw]
    omega
  unfold Divided
  split
  next hc =>
    have hge := hcond.1 hc
    have hsub := h.step_sub hshift (Nat.mod_lt _ (by decide)) hge
    dsimp only
    rw [toNat_sub, hw, toNat_shiftLeft_one, toNat_shiftLeft_or_one]
    convert hsub using 1
    all_goals omega
  next hc =>
    have hkeep := h.step_keep hshift (Nat.mod_lt _ (by decide)) (not_le.1 (mt hcond.2 hc))
    have := hkeep.hi_lt
    dsimp only
    rw [hw, toNat_shiftLeft_one, toNat_shiftLeft_one]
    convert hkeep using 1
    all_goals omega

theorem divided_iterate {div : U32} {n : ℕ} {v : Division} (h : Divided div n 0 v) {i : ℕ}
    (hi : i ≤ 32) : Divided div n i ((divStep div)^[i] v) := by
  induction i with
  | zero => exact h
  | succ i ih =>
    rw [Function.iterate_succ_apply']
    exact divided_divStep (ih (by omega)) (by omega)

/-- **`div_unsigned`** divides a number of 64 bits if the quotient has 32 bits. -/
theorem divUnsigned_eq (hi lo div : U32) : divUnsigned hi lo div =
      if div.toNat * 2 ^ 32 ≤ (hi ++ lo).toNat then none
      else some (BitVec.ofNat 32 ((hi ++ lo).toNat / div.toNat), BitVec.ofNat 32
        ((hi ++ lo).toNat % div.toNat)) := by
  have hlo := lo.isLt
  have hle : div ≤ hi ↔ div.toNat * 2 ^ 32 ≤ hi.toNat * 2 ^ 32 + lo.toNat := by
    rw [le_def]
    omega
  rw [divUnsigned, toNat_append]
  by_cases hover : div ≤ hi
  · rw [if_pos hover, if_pos (hle.1 hover)]
  · rw [if_neg hover, if_neg (mt hle.2 hover)]
    have hstart : Divided div (hi.toNat * 2 ^ 32 + lo.toNat) 0 ⟨0, hi, lo⟩ :=
      LongDivision.start (BitVec.not_le.1 hover) hlo
    obtain ⟨hquot, hrem⟩ := (divided_iterate hstart (le_refl 32)).finish
    rw [← hquot, ← hrem, ofNat_toNat, ofNat_toNat, setWidth_eq, setWidth_eq]

/-! ## The division -/

theorem eq_of_sign {z : ℤ} {c : Prop} [Decidable c] (hneg : c → 0 ≤ -z) (hpos : ¬ c → 0 ≤ z) :
    z = if c then -(z.natAbs : ℤ) else z.natAbs := by
  split
  next h =>
    have := hneg h
    omega
  next h =>
    have := hpos h
    omega

theorem tdiv_eq (n d : ℤ) :
    n.tdiv d = if ¬ (n < 0 ↔ d < 0) then -((n.natAbs / d.natAbs : ℕ) : ℤ)
      else ((n.natAbs / d.natAbs : ℕ) : ℤ) := by
  rw [show n.natAbs / d.natAbs = (n.tdiv d).natAbs from (Int.natAbs_tdiv n d).symm]
  refine eq_of_sign (fun hdiff => ?_) fun hsame => ?_
  · rcases lt_or_ge n 0 with hn | hn
    · rw [← Int.neg_tdiv]
      exact Int.tdiv_nonneg (by omega) (by omega)
    · rw [← Int.tdiv_neg]
      exact Int.tdiv_nonneg hn (by omega)
  · rcases lt_or_ge n 0 with hn | hn
    · rw [← Int.neg_tdiv_neg]
      exact Int.tdiv_nonneg (by omega) (by omega)
    · exact Int.tdiv_nonneg hn (by omega)

theorem tmod_eq (n d : ℤ) :
    n.tmod d = if n < 0 then -((n.natAbs % d.natAbs : ℕ) : ℤ)
      else ((n.natAbs % d.natAbs : ℕ) : ℤ) := by
  rw [← Int.natAbs_tmod]
  refine eq_of_sign (fun hn => ?_) fun hn => Int.tmod_nonneg _ (not_lt.1 hn)
  rw [← Int.neg_tmod]
  exact Int.tmod_nonneg _ (by omega)

/-- `div_unsigned` finds a quotient of more than 32 bits in the signed variant. -/
def Exceeds (s : Regs) (src : U32) (extra : U16) : Prop :=
  Signed extra ∧ (value extra src).natAbs * 2 ^ 32 ≤ (dividend s extra).natAbs
deriving Decidable

theorem toNat_append_unsignedHigh (h : ¬ Signed extra) :
    ((unsignedHigh s extra ++ s.dreg (quotReg extra) : BitVec 64).toNat : ℤ) =
      dividend s extra := by
  unfold dividend
  split
  next hq => rw [unsignedHigh, if_pos (show extra &&& 0x400 ≠ 0 from hq), value_unsigned h]
  next hq =>
    rw [unsignedHigh, if_neg (show ¬ extra &&& 0x400 ≠ 0 from hq), value_unsigned h, toNat_append]
    show ((0 * _ + _ : ℕ) : ℤ) = _
    rw [Nat.zero_mul, Nat.zero_add]

/-- **The unsigned division** is the one with 64-bit integers. -/
theorem m68kDivl_unsigned (hsrc : src ≠ 0) (h : ¬ Signed extra) :
    m68kDivl u s src extra = .done (result s src extra) := by
  have hn := toNat_append_unsignedHigh (s := s) h
  have hpos : 0 < src.toNat := Nat.pos_of_ne_zero fun h0 => hsrc (BitVec.eq_of_toNat_eq h0)
  unfold m68kDivl
  rw [if_neg hsrc, if_neg (show ¬ extra &&& 0x800 ≠ 0 from h), divUnsigned_eq]
  generalize (unsignedHigh s extra ++ s.dreg (quotReg extra) : BitVec 64).toNat = n at hn ⊢
  have hquot : quotient s src extra = (n / src.toNat : ℕ) := by
    rw [quotient, ← hn, value_unsigned h, Int.ofNat_tdiv]
  have hrem : remainder s src extra = (n % src.toNat : ℕ) := by
    rw [remainder, ← hn, value_unsigned h, Int.ofNat_tmod]
  have hfit : Holds32 extra (quotient s src extra) ↔ ¬ src.toNat * 2 ^ 32 ≤ n := by
    rw [Holds32, if_neg h, hquot, not_le, Nat.mul_comm, ← Nat.div_lt_iff_lt_mul hpos]
    generalize n / src.toNat = q
    omega
  rw [result, hrem]
  by_cases hex : src.toNat * 2 ^ 32 ≤ n
  · rw [if_pos hex, if_neg (not_not.2 hex ∘ hfit.1)]
  · rw [if_neg hex, if_pos (hfit.2 hex), hquot, ofInt_natCast, ofInt_natCast]

theorem toInt_append_signedHigh (h : Signed extra) :
    (signedHigh s extra ++ s.dreg (quotReg extra) : BitVec 64).toInt = dividend s extra := by
  unfold dividend
  split
  next hq => rw [signedHigh, if_pos (show extra &&& 0x400 ≠ 0 from hq), value_signed h]
  next hq =>
    have hlo := (s.dreg (quotReg extra)).isLt
    rw [signedHigh, if_neg (show ¬ extra &&& 0x400 ≠ 0 from hq), value_signed h,
      toInt_eq_toNat_cond, toInt_eq_toNat_cond, toNat_append]
    split
    next hneg =>
      have := (slt_zero_iff _).1 hneg
      rw [show (-1 : U32).toNat = 2 ^ 32 - 1 by decide]
      split <;> split <;> omega
    next hneg =>
      have := mt (slt_zero_iff _).2 hneg
      rw [show (0 : U32).toNat = 0 from rfl]
      split <;> split <;> omega

theorem divUnsigned_abs (h : Signed extra) :
    divUnsigned (absPair (signedHigh s extra) (s.dreg (quotReg extra))).1
        (absPair (signedHigh s extra) (s.dreg (quotReg extra))).2 (absWord src) =
      if Exceeds s src extra then none
      else some (BitVec.ofNat 32 ((dividend s extra).natAbs / (value extra src).natAbs),
        BitVec.ofNat 32 ((dividend s extra).natAbs % (value extra src).natAbs)) := by
  rw [divUnsigned_eq, toNat_absPair, toInt_append_signedHigh h, toNat_absWord, ← value_signed h]
  exact if_congr (and_iff_right h).symm rfl rfl

theorem m68kDivl_exceeds (hsrc : src ≠ 0) (hex : Exceeds s src extra) :
    ∃ quot rem, m68kDivl u s src extra =
      .done (if 0x80000000 < u.quot then s.overflow else s.divided extra quot rem) := by
  unfold m68kDivl
  rw [if_neg hsrc, if_pos (show extra &&& 0x800 ≠ 0 from hex.1)]
  dsimp only
  rw [divUnsigned_abs hex.1, if_pos hex]
  have htest : ∀ sign : U32, tooLarge true sign u.quot = true ↔ 0x80000000 < u.quot := by
    intro sign
    rw [tooLarge, if_pos (.inl rfl), decide_eq_true_iff]
  by_cases hq : 0x80000000 < u.quot
  · exact ⟨0, 0, (if_pos ((htest _).2 hq)).trans (congrArg Outcome.done (if_pos hq).symm)⟩
  · exact ⟨_, _, (if_neg (mt (htest _).1 hq)).trans (congrArg Outcome.done (if_neg hq).symm)⟩

theorem sign_iff (h : Signed extra) :
    (signedHigh s extra ^^^ src) &&& 0x80000000 ≠ 0 ↔
    ¬ (dividend s extra < 0 ↔ value extra src < 0) := by
  have hhi : (signedHigh s extra).toInt < 0 ↔ dividend s extra < 0 := by
    rw [← toInt_append_signedHigh h, ← slt_zero_iff_append, slt_iff_toInt_lt]
    exact Iff.rfl
  rw [xor_sign_iff, hhi, value_signed h]

theorem ofInt_sign (sign : U32) (q : ℕ) :
    (if sign &&& 0x80000000 ≠ 0 then -BitVec.ofNat 32 q else BitVec.ofNat 32 q) =
      BitVec.ofInt 32 (if sign &&& 0x80000000 ≠ 0 then -(q : ℤ) else q) := by
  split
  · rw [ofInt_neg, ofInt_natCast]
  · rw [ofInt_natCast]

theorem ofInt_remainder {hi : U32} {n : ℤ} (hhi : hi.slt 0 = decide (n < 0)) {r : ℕ}
    (hr : r < 2 ^ 31) :
    (if (BitVec.ofNat 32 r).slt 0 ≠ hi.slt 0 then -BitVec.ofNat 32 r else BitVec.ofNat 32 r) =
      BitVec.ofInt 32 (if n < 0 then -(r : ℤ) else r) := by
  have hpos : (BitVec.ofNat 32 r).slt 0 = false := by
    rw [Bool.eq_false_iff, Ne, slt_zero_iff, toNat_ofNat]
    omega
  rw [hpos, hhi]
  by_cases hn : n < 0
  · rw [decide_eq_true hn, if_pos (by decide), if_pos hn, ofInt_neg, ofInt_natCast]
  · rw [decide_eq_false hn, if_neg (by decide), if_neg hn, ofInt_natCast]

theorem tooLarge_iff (h : Signed extra) (sign : U32) {q : ℕ} (hq : q < 2 ^ 32) :
    tooLarge false sign (BitVec.ofNat 32 q) = true ↔
      ¬ Holds32 extra (if sign &&& 0x80000000 ≠ 0 then -(q : ℤ) else q) := by
  have hlt : ∀ k : U32, k < BitVec.ofNat 32 q ↔ k.toNat < q := by
    intro k
    rw [lt_def, toNat_ofNat, Nat.mod_eq_of_lt hq]
  rw [tooLarge, Holds32, if_pos h]
  by_cases hs : sign &&& 0x80000000 ≠ 0
  · rw [if_pos (.inr hs), if_pos hs, decide_eq_true_iff, hlt]
    show 0x80000000 < q ↔ _
    omega
  · rw [if_neg (by simpa using hs), if_neg hs, decide_eq_true_iff, hlt]
    show 0x7fffffff < q ↔ _
    omega

theorem m68kDivl_signed (hsrc : src ≠ 0) (h : Signed extra) (hex : ¬ Exceeds s src extra) :
    m68kDivl u s src extra = .done (result s src extra) := by
  have hd : 0 < (value extra src).natAbs := Int.natAbs_pos.2 (value_ne_zero hsrc)
  have hd31 : (value extra src).natAbs ≤ 2 ^ 31 := natAbs_value_le h
  have hhigh : (signedHigh s extra).slt 0 = decide (dividend s extra < 0) := by
    rw [Bool.eq_iff_iff, slt_zero_iff_append, toInt_append_signedHigh h, decide_eq_true_iff]
  have hq32 : (dividend s extra).natAbs / (value extra src).natAbs < 2 ^ 32 := by
    rw [Nat.div_lt_iff_lt_mul hd, Nat.mul_comm]
    exact not_le.1 fun hle => hex ⟨h, hle⟩
  have hr31 : (dividend s extra).natAbs % (value extra src).natAbs < 2 ^ 31 :=
    lt_of_lt_of_le (Nat.mod_lt _ hd) hd31
  have hquot := tdiv_eq (dividend s extra) (value extra src)
  rw [← quotient, ← if_congr (sign_iff h) rfl rfl] at hquot
  have hrem := tmod_eq (dividend s extra) (value extra src)
  rw [← remainder] at hrem
  unfold m68kDivl
  rw [if_neg hsrc, if_pos (show extra &&& 0x800 ≠ 0 from h)]
  dsimp only
  rw [divUnsigned_abs h, if_neg hex]
  dsimp only [Option.isNone, Option.getD]
  rw [ofInt_sign, ofInt_remainder hhigh hr31, ← hquot, ← hrem, result]
  have htest := tooLarge_iff h (signedHigh s extra ^^^ src) hq32
  rw [← hquot] at htest
  by_cases hfit : Holds32 extra (quotient s src extra)
  · rw [if_neg (mt htest.1 (not_not.2 hfit)), if_pos hfit]
  · rw [if_pos (htest.2 hfit), if_neg hfit]

theorem not_holds32_of_exceeds (hsrc : src ≠ 0) (hex : Exceeds s src extra) :
    ¬ Holds32 extra (quotient s src extra) := by
  have hd : 0 < (value extra src).natAbs := Int.natAbs_pos.2 (value_ne_zero hsrc)
  have hle : 2 ^ 32 ≤ (quotient s src extra).natAbs := by
    rw [quotient, Int.natAbs_tdiv]
    exact (Nat.le_div_iff_mul_le hd).2 (Nat.mul_comm _ _ ▸ hex.2)
  rw [Holds32, if_pos hex.1]
  omega

theorem m68kDivl_agrees_iff (u : Unset) (s : Regs) (src : U32) (extra : U16) :
    m68kDivl u s src extra = LongArith.m68kDivl s src extra ↔
      (src ≠ 0 → Exceeds s src extra → 0x80000000 < u.quot ∧ ¬ HostOverflow s src extra) := by
  by_cases hsrc : src = 0
  · subst hsrc
    exact iff_of_true rfl fun h => absurd rfl h
  · rw [LongArith.m68kDivl_eq hsrc]
    by_cases hex : Exceeds s src extra
    · obtain ⟨quot, rem, hrun⟩ := m68kDivl_exceeds (u := u) hsrc hex
      have hres : result s src extra = s.overflow := if_neg (not_holds32_of_exceeds hsrc hex)
      rw [hrun, hres]
      by_cases hov : HostOverflow s src extra
      · rw [if_pos hov]
        exact iff_of_false (fun h => Outcome.noConfusion h) fun h => (h hsrc hex).2 hov
      · rw [if_neg hov]
        by_cases hq : 0x80000000 < u.quot
        · rw [if_pos hq]
          exact iff_of_true rfl fun _ _ => ⟨hq, hov⟩
        · rw [if_neg hq]
          -- `V` is clear in one build and set in the other
          refine iff_of_false (fun h => ?_) fun h => hq (h hsrc hex).1
          exact Bool.false_ne_true (congrArg Regs.vflg (Outcome.done.inj h))
    · have hov : ¬ HostOverflow s src extra := by
        rintro ⟨h, hn, hd⟩
        refine hex ⟨h, ?_⟩
        rw [hn, hd]
        decide
      have hrun : m68kDivl u s src extra = .done (result s src extra) := by
        by_cases h : Signed extra
        · exact m68kDivl_signed hsrc h hex
        · exact m68kDivl_unsigned hsrc h
      rw [hrun, if_neg hov]
      exact iff_of_true rfl fun _ h => absurd h hex

/-! ## The multiplication -/

theorem toNat_add_carry (x y : U32) :
    (x + y).toNat + (if x + y < x then 1 else 0) * 2 ^ 32 = x.toNat + y.toNat := by
  have hx := x.isLt
  have hy := y.isLt
  have hlt : x + y < x ↔ 2 ^ 32 ≤ x.toNat + y.toNat := by
    rw [lt_def, toNat_add]
    omega
  rw [toNat_add]
  split
  next h =>
    have := hlt.1 h
    omega
  next h =>
    have := mt hlt.2 h
    omega

theorem toNat_lowHalf : (lowHalf x).toNat = x.toNat % 2 ^ 16 := toNat_and_low x (by decide)

theorem toNat_highHalf : (highHalf x).toNat = x.toNat / 2 ^ 16 := by
  have hx := x.isLt
  rw [highHalf, toNat_and_low _ (by decide : (0xffff : U32).toNat = 2 ^ 16 - 1), toNat_ushiftRight,
    Nat.shiftRight_eq_div_pow]
  omega

theorem toNat_shifted_half : (x <<< 16 &&& 0xffff0000).toNat = x.toNat % 2 ^ 16 * 2 ^ 16 := by
  have hand : (x <<< 16 &&& 0xffff0000).toNat = (x <<< 16).toNat / 2 ^ 16 * 2 ^ 16 :=
    toNat_and_high (n := 32) (k := 16) (x <<< 16).isLt (by decide)
  rw [hand, toNat_shiftLeft, Nat.shiftLeft_eq]
  omega

theorem toNat_add_ite (c : Prop) [Decidable c] :
    (if c then x + 1 else x).toNat = (x.toNat + if c then 1 else 0) % 2 ^ 32 := by
  have hx := x.isLt
  split
  · exact toNat_add x 1
  · rw [Nat.add_zero, Nat.mod_eq_of_lt hx]

theorem toNat_addParts {r0 r1 r2 r3 : U32}
    (h : r3.toNat * 2 ^ 32 + (r1.toNat + r2.toNat) * 2 ^ 16 + r0.toNat < 2 ^ 64) :
    ((addParts r0 r1 r2 r3).1 ++ (addParts r0 r1 r2 r3).2 : BitVec 64).toNat =
      r3.toNat * 2 ^ 32 + (r1.toNat + r2.toNat) * 2 ^ 16 + r0.toNat := by
  rw [toNat_append, addParts]
  dsimp only
  have hc1 := toNat_add_carry r0 (r1 <<< 16 &&& 0xffff0000)
  have hc2 := toNat_add_carry (r0 + (r1 <<< 16 &&& 0xffff0000)) (r2 <<< 16 &&& 0xffff0000)
  rw [toNat_shifted_half] at hc1 hc2
  rw [toNat_add, toNat_add, toNat_add_ite, toNat_add_ite, toNat_highHalf, toNat_highHalf]
  generalize r0 + (r1 <<< 16 &&& 0xffff0000) = mid at hc1 hc2 ⊢
  generalize mid + (r2 <<< 16 &&& 0xffff0000) = lo at hc2 ⊢
  have hlo := lo.isLt
  generalize (if mid < r0 then 1 else 0) = c1 at hc1 ⊢
  generalize (if lo < mid then 1 else 0) = c2 at hc2 ⊢
  omega

theorem fits_lowHalf : Fits 16 (lowHalf x) := fits_and_right (by decide)

theorem fits_highHalf : Fits 16 (highHalf x) := fits_and_right (by decide)

end

theorem mulUnsigned_eq (x y : U32) :
    ((mulUnsigned x y).1 ++ (mulUnsigned x y).2 : BitVec 64).toNat = x.toNat * y.toNat := by
  have hprod : (highHalf x * highHalf y).toNat * 2 ^ 32 +
      ((highHalf x * lowHalf y).toNat + (lowHalf x * highHalf y).toNat) * 2 ^ 16 +
        (lowHalf x * lowHalf y).toNat = x.toNat * y.toNat := by
    rw [toNat_mul_of_fits (fits_highHalf x) (fits_highHalf y) (by decide),
      toNat_mul_of_fits (fits_highHalf x) (fits_lowHalf y) (by decide),
      toNat_mul_of_fits (fits_lowHalf x) (fits_highHalf y) (by decide),
      toNat_mul_of_fits (fits_lowHalf x) (fits_lowHalf y) (by decide),
      toNat_highHalf, toNat_highHalf, toNat_lowHalf, toNat_lowHalf]
    conv_rhs => rw [← Nat.div_add_mod x.toNat (2 ^ 16), ← Nat.div_add_mod y.toNat (2 ^ 16)]
    ring
  rw [← hprod]
  refine toNat_addParts ?_
  rw [hprod]
  exact lt_of_lt_of_le (Nat.mul_lt_mul'' x.isLt y.isLt) (by decide)

/-! The parts of a double word. -/

section
variable (hi lo : U32)

theorem ushiftRight_append : ((hi ++ lo : BitVec 64) >>> 32).setWidth 32 = hi := by
  have hhi := hi.isLt
  have hlo := lo.isLt
  apply BitVec.eq_of_toNat_eq
  rw [toNat_setWidth, toNat_ushiftRight, toNat_append, Nat.shiftRight_eq_div_pow]
  omega

theorem sshiftRight_append : ((hi ++ lo : BitVec 64).sshiftRight 32).setWidth 32 = hi := by
  apply eq_of_getLsbD_eq
  intro i hi32
  rw [getLsbD_setWidth, getLsbD_sshiftRight, getLsbD_append]
  simp [hi32, show 32 + i < 64 by omega, show ¬ 64 ≤ i by omega]

theorem append_eq_zero_iff : (hi ++ lo : BitVec 64) = 0 ↔ hi = 0 ∧ lo = 0 := by
  rw [← toNat_inj, ← toNat_inj, ← toNat_inj, toNat_append]
  show _ = 0 ↔ _ = 0 ∧ _ = 0
  omega

theorem append_beq_zero : ((hi ++ lo : BitVec 64) == 0) = (hi == 0 && lo == 0) := by
  rw [Bool.eq_iff_iff, Bool.and_eq_true, beq_iff_eq, beq_iff_eq, beq_iff_eq, append_eq_zero_iff]

theorem append_high_iff : (hi ++ lo : BitVec 64) &&& 0xffffffff00000000 ≠ 0 ↔ hi ≠ 0 := by
  have hlo := lo.isLt
  have hand : ((hi ++ lo : BitVec 64) &&& 0xffffffff00000000).toNat =
    (hi ++ lo : BitVec 64).toNat / 2 ^ 32 * 2 ^ 32 :=
    toNat_and_high (n := 64) (k := 32) (hi ++ lo : BitVec 64).isLt (by decide)
  rw [Ne, Ne, ← toNat_inj, ← toNat_inj, hand, toNat_append]
  show ¬ _ = 0 ↔ ¬ _ = 0
  omega

theorem signed_high_iff :
    ((hi ≠ 0 ∨ lo &&& 0x80000000 ≠ 0) ∧
      (hi &&& 0xffffffff ≠ 0xffffffff ∨ lo &&& 0x80000000 ≠ 0x80000000)) ↔
      ((hi ++ lo : BitVec 64) &&& 0xffffffff80000000 ≠ 0 ∧
        (hi ++ lo : BitVec 64) &&& 0xffffffff80000000 ≠ 0xffffffff80000000) := by
  have hhi := hi.isLt
  have hlo := lo.isLt
  have hones : hi &&& 0xffffffff = hi := and_allOnes
  rw [high_iff, toInt_eq_toNat_cond, toNat_append, hones]
  rw [Ne, Ne, Ne, Ne, ← toNat_inj, ← toNat_inj, ← toNat_inj, ← toNat_inj, toNat_and_sign]
  show (¬ _ = 0 ∨ ¬ _ = 0) ∧ (¬ _ = 0xffffffff ∨ ¬ _ = 0x80000000) ↔ _
  split <;> omega

end

theorem m68kMull_unsigned (h : ¬ Signed extra) :
    m68kMull s src extra = LongArith.m68kMull s src extra := by
  have hmul : (s.dreg (quotReg extra)).setWidth 64 * src.setWidth 64 =
      (mulUnsigned src (s.dreg (quotReg extra))).1 ++
        (mulUnsigned src (s.dreg (quotReg extra))).2 := by
    apply BitVec.eq_of_toNat_eq
    have hlt : (s.dreg (quotReg extra)).toNat * src.toNat < 2 ^ 64 :=
      lt_of_lt_of_le (Nat.mul_lt_mul'' (s.dreg (quotReg extra)).isLt src.isLt) (by decide)
    rw [mulUnsigned_eq, toNat_mul, toNat_setWidth_of_le (by decide),
      toNat_setWidth_of_le (by decide), Nat.mod_eq_of_lt hlt, Nat.mul_comm]
  unfold m68kMull LongArith.m68kMull
  rw [if_neg (show ¬ extra &&& 0x800 ≠ 0 from h), if_neg (show ¬ extra &&& 0x800 ≠ 0 from h)]
  dsimp only
  rw [hmul, ushiftRight_append, setWidth_append_eq_right, slt_append, append_beq_zero,
    decide_eq_decide.2 (append_high_iff _ _)]

theorem mul_eq (x y : ℤ) :
    x * y = if ¬ (x < 0 ↔ y < 0) then -((x.natAbs * y.natAbs : ℕ) : ℤ)
      else ((x.natAbs * y.natAbs : ℕ) : ℤ) := by
  rw [← Int.natAbs_mul]
  refine eq_of_sign (fun hdiff => ?_) fun hsame => ?_
  · rcases lt_or_ge x 0 with hx | hx
    · rw [← Int.neg_mul]
      exact Int.mul_nonneg (by omega) (by omega)
    · rw [← Int.mul_neg]
      exact Int.mul_nonneg hx (by omega)
  · rcases lt_or_ge x 0 with hx | hx
    · rw [← Int.neg_mul_neg]
      exact Int.mul_nonneg (by omega) (by omega)
    · exact Int.mul_nonneg hx (by omega)

theorem signExtend_mul (x y : U32) :
    x.signExtend 64 * y.signExtend 64 = BitVec.ofInt 64 (x.toInt * y.toInt) := by
  rw [ofInt_mul]
  rfl

theorem append_signedProduct (x y : U32) :
    ((signedProduct x y).1 ++ (signedProduct x y).2 : BitVec 64) =
      x.signExtend 64 * y.signExtend 64 := by
  have hmul : ((mulUnsigned (absWord x) (absWord y)).1 ++
    (mulUnsigned (absWord x) (absWord y)).2 : BitVec 64) =
      BitVec.ofInt 64 ((x.toInt.natAbs * y.toInt.natAbs : ℕ) : ℤ) := by
    rw [ofInt_natCast, ← toNat_absWord, ← toNat_absWord, ← mulUnsigned_eq, ofNat_toNat, setWidth_eq]
  rw [signExtend_mul, mul_eq, signedProduct, ← if_congr (xor_sign_iff x y) rfl rfl]
  split
  · rw [append_negate, hmul, ofInt_neg]
  · exact hmul

theorem m68kMull_signed (h : Signed extra) :
    m68kMull s src extra = LongArith.m68kMull s src extra := by
  have hmul := append_signedProduct src (s.dreg (quotReg extra))
  unfold m68kMull LongArith.m68kMull
  rw [if_pos (show extra &&& 0x800 ≠ 0 from h), if_pos (show extra &&& 0x800 ≠ 0 from h)]
  dsimp only
  rw [BitVec.mul_comm ((s.dreg (quotReg extra)).signExtend 64), ← hmul, sshiftRight_append,
    setWidth_append_eq_right, slt_append, append_beq_zero, decide_eq_decide.2 (signed_high_iff _ _)]

/-- **The two builds.**  They multiply alike, and divide alike but for a signed division with a
    quotient of more than 32 bits; that one is an overflow with 64-bit integers, and without them
    only if the unset `quot` is above `0x80000000`. -/
theorem portable_agrees_iff (u : Unset) (s : Regs) (src : U32) (extra : U16) :
    (m68kDivl u s src extra = LongArith.m68kDivl s src extra ∧
      m68kMull s src extra = LongArith.m68kMull s src extra) ↔
        (src ≠ 0 → Exceeds s src extra → 0x80000000 < u.quot ∧ ¬ HostOverflow s src extra) := by
  have hmul : m68kMull s src extra = LongArith.m68kMull s src extra := by
    by_cases h : Signed extra
    · exact m68kMull_signed h
    · exact m68kMull_unsigned h
  rw [and_iff_left hmul, m68kDivl_agrees_iff]

/-- `DIVS.L D1,D2:D0` of `2 ^ 32` by 1, with an unset `quot` that is 0. -/
theorem portable_misses_overflow :
    let s : Regs := ⟨fun i => if i = 2 then 1 else 0, false, false, false, false⟩
    LongArith.m68kDivl s 1 0x0c02 = .done s.overflow ∧
      ∃ t, m68kDivl ⟨0, 0⟩ s 1 0x0c02 = .done t ∧ t.vflg = false ∧ t.dreg 2 = 0 := by
  intro s
  refine ⟨?_, _, rfl, rfl, rfl⟩
  rw [LongArith.m68kDivl_eq (by decide), if_neg (by decide), result, if_neg (by decide)]

end Portable

end Aranym.LongArith
