/-
  `DIVS.L` and `DIVU.L`, `MULS.L` and `MULU.L` (`newcpu.cpp`), built with 64-bit host integers.

  A host division that overflows does not return: `Outcome.trap`.
-/
import Aranym.Lib.Words

namespace Aranym.LongArith

open Lib Function
open BitVec hiding lt_trichotomy not_not

/-! ## The model -/

/-- The data registers and the flags. -/
structure Regs where
  dreg : Fin 8 → U32
  nflg : Bool
  zflg : Bool
  vflg : Bool
  cflg : Bool

/-- The registers or an exception. -/
inductive Outcome where
  | done (s : Regs)
  /-- `Exception (5, oldpc)` -/
  | exception
  /-- a host division has overflowed -/
  | trap

variable {w : ℕ} (s : Regs) (extra : U16)

/-- The register of the quotient, `(extra >> 12) & 7`. -/
def quotReg : Fin 8 := ⟨(extra >>> 12).toNat % 8, Nat.mod_lt _ (by decide)⟩

/-- The register of the remainder, `extra & 7`. -/
def remReg : Fin 8 := ⟨extra.toNat % 8, Nat.mod_lt _ (by decide)⟩

/-- The quotient does not fit. -/
def Regs.overflow : Regs := { s with vflg := true, nflg := true, cflg := false }

/-- The flags and the registers after a division. -/
def Regs.divided (quot rem : U32) : Regs where
  dreg := Function.update (Function.update s.dreg (remReg extra) rem) (quotReg extra) quot
  nflg := quot.slt 0
  zflg := quot == 0
  vflg := false
  cflg := false

/-- `a &= 0xffffffffu; a |= … << 32;` in the 64-bit form. -/
def withHigh (a : BitVec 64) : BitVec 64 :=
  if extra &&& 0x400 ≠
    0 then a &&& (0xffffffff : BitVec 64) ||| (s.dreg (remReg extra)).setWidth 64 <<< 32 else a

/-- `DIVS.L` and `DIVU.L`. -/
def m68kDivl (src : U32) (extra : U16) : Outcome :=
  if src = 0 then .exception
  else if extra &&& 0x800 ≠ 0 then
    let a := withHigh s extra ((s.dreg (quotReg extra)).signExtend 64)
    let d := src.signExtend 64
    if a = BitVec.intMin 64 ∧ d = -1 then .trap
    else
      let rem := a.srem d
      let quot := a.sdiv d
      if quot &&& 0xffffffff80000000 ≠ 0 ∧
        quot &&& 0xffffffff80000000 ≠ 0xffffffff80000000 then .done s.overflow
      else
        let rem := if (rem.setWidth 32).slt 0 ≠ a.slt 0 then -rem else rem
        .done (s.divided extra (quot.setWidth 32) (rem.setWidth 32))
  else
    let a := withHigh s extra ((s.dreg (quotReg extra)).setWidth 64)
    let d := src.setWidth 64
    let rem := a % d
    let quot := a / d
    if 0xffffffff < quot then .done s.overflow
    else .done (s.divided extra (quot.setWidth 32) (rem.setWidth 32))

/-- The flags and the registers after a multiplication: `hi` is stored in the 64-bit form only, and
    `v` tells whether the product does not fit in the other one. -/
def Regs.multiplied (hi lo : U32) (n z v : Bool) : Regs where
  dreg := Function.update (if extra &&& 0x400 ≠
    0 then Function.update s.dreg (remReg extra) hi else s.dreg)
    (quotReg extra) lo
  nflg := n
  zflg := z
  vflg := if extra &&& 0x400 ≠ 0 then false else v
  cflg := false

/-- `MULS.L` and `MULU.L`. -/
def m68kMull (src : U32) (extra : U16) : Regs :=
  if extra &&& 0x800 ≠ 0 then
    let a := (s.dreg (quotReg extra)).signExtend 64 * src.signExtend 64
    s.multiplied extra ((a.sshiftRight 32).setWidth 32) (a.setWidth 32) (a.slt 0) (a == 0)
      (decide (a &&& 0xffffffff80000000 ≠ 0 ∧ a &&& 0xffffffff80000000 ≠ 0xffffffff80000000))
  else
    let a := (s.dreg (quotReg extra)).setWidth 64 * src.setWidth 64
    s.multiplied extra ((a >>> 32).setWidth 32) (a.setWidth 32) (a.slt 0) (a == 0)
      (decide (a &&& 0xffffffff00000000 ≠ 0))

/-! ## The division -/

/-- The variant is signed. -/
def Signed : Prop := extra &&& 0x800 ≠ 0
deriving Decidable

/-- The dividend has 64 bits. -/
def Quad : Prop := extra &&& 0x400 ≠ 0
deriving Decidable

/-- The number in a word. -/
def value (x : BitVec w) : ℤ := if Signed extra then x.toInt else x.toNat

/-- What is divided. -/
def dividend : ℤ :=
  if Quad extra then value extra (s.dreg (remReg extra) ++ s.dreg (quotReg extra))
  else value extra (s.dreg (quotReg extra))

/-- The quotient, towards zero. -/
def quotient (src : U32) (extra : U16) : ℤ := (dividend s extra).tdiv (value extra src)

/-- Its remainder. -/
def remainder (src : U32) (extra : U16) : ℤ := (dividend s extra).tmod (value extra src)

/-- A number that 32 bits can hold. -/
def Holds32 (q : ℤ) : Prop :=
  if Signed extra then -2 ^ 31 ≤ q ∧ q < 2 ^ 31 else 0 ≤ q ∧ q < 2 ^ 32
deriving Decidable

/-- The registers after the division. -/
def result (src : U32) (extra : U16) : Regs :=
  if Holds32 extra (quotient s src extra) then
    s.divided extra (BitVec.ofInt 32 (quotient s src extra))
      (BitVec.ofInt 32 (remainder s src extra))
  else s.overflow

/-- The host division overflows. -/
def HostOverflow (src : U32) (extra : U16) : Prop :=
  Signed extra ∧ dividend s extra = -2 ^ 63 ∧ value extra src = -1
deriving Decidable

variable {s : Regs} {src : U32} {extra : U16}

variable {a : BitVec 64}

/-! ## Words -/

theorem pair_eq {lo : U32} (h : a.setWidth 32 = lo) (hi : U32) :
    a &&& (0xffffffff : BitVec 64) ||| hi.setWidth 64 <<< 32 = (hi ++ lo : BitVec 64) := by
  subst h
  apply eq_of_getLsbD_eq
  intro i hi64
  have hones : (0xffffffff : BitVec 64).getLsbD i = decide (i < 32) := by
    have hm : (0xffffffff : BitVec 64) = (BitVec.allOnes 32).setWidth 64 := by decide
    rw [hm, getLsbD_setWidth, getLsbD_allOnes, decide_eq_true hi64, Bool.true_and]
  rw [getLsbD_or, getLsbD_and, hones, getLsbD_append, getLsbD_shiftLeft, getLsbD_setWidth,
    getLsbD_setWidth]
  by_cases h32 : i < 32
  · simp [h32]
  · simp [h32, hi64, show i - 32 < 64 by omega]

theorem setWidth_eq_ofInt (x : BitVec 64) : x.setWidth 32 = BitVec.ofInt 32 x.toInt := by
  apply BitVec.eq_of_toNat_eq
  rw [toNat_setWidth, toNat_ofInt, toInt_eq_toNat_cond]
  split <;> omega

theorem high_iff (x : BitVec 64) :
    (x &&& 0xffffffff80000000 ≠ 0 ∧ x &&& 0xffffffff80000000 ≠ 0xffffffff80000000) ↔
      ¬ (-2 ^ 31 ≤ x.toInt ∧ x.toInt < 2 ^ 31) := by
  have hx := x.isLt
  have hand : (x &&& 0xffffffff80000000).toNat = x.toNat / 2 ^ 31 * 2 ^ 31 :=
    toNat_and_high (n := 64) (k := 31) hx (by decide)
  rw [Ne, Ne, ← toNat_inj, ← toNat_inj, hand, toInt_eq_toNat_cond]
  show (¬ _ = 0 ∧ ¬ _ = 0xffffffff80000000) ↔ _
  split <;> omega

/-! ## The signed variant -/

theorem value_signed {w : ℕ} (h : Signed extra) (x : BitVec w) : value extra x = x.toInt := if_pos h

theorem value_unsigned {w : ℕ} (h : ¬ Signed extra)
    (x : BitVec w) : value extra x = x.toNat := if_neg h

theorem withHigh_quad (hq : Quad extra) (h : a.setWidth 32 = s.dreg (quotReg extra)) :
    withHigh s extra a = s.dreg (remReg extra) ++ s.dreg (quotReg extra) := by
  rw [withHigh, if_pos (show extra &&& 0x400 ≠ 0 from hq), pair_eq h]

theorem withHigh_long (hq : ¬ Quad extra) : withHigh s extra a = a := if_neg hq

theorem setWidth_signExtend (x : U32) : (x.signExtend 64).setWidth 32 = x := by
  apply eq_of_getLsbD_eq
  intro i hi
  rw [getLsbD_setWidth, getLsbD_signExtend]
  simp [hi, show i < 64 by omega]

theorem toInt_dividend (h : Signed extra) :
    (withHigh s extra ((s.dreg (quotReg extra)).signExtend 64)).toInt = dividend s extra := by
  unfold dividend
  split
  next hq =>
    rw [withHigh_quad hq (setWidth_signExtend _), value_signed h]
  next hq => rw [withHigh_long hq, value_signed h, toInt_signExtend_of_le (by decide)]

theorem tmod_sign (n d : ℤ) (hd : d ≠ 0) :
    (n.tmod d).natAbs < d.natAbs ∧ (n.tmod d = 0 ∨ (n.tmod d).sign = n.sign) := by
  refine ⟨?_, ?_⟩
  · rw [Int.natAbs_tmod]
    exact Nat.mod_lt _ (Int.natAbs_pos.2 hd)
  · by_cases hz : n.tmod d = 0
    · exact .inl hz
    · refine .inr ?_
      rcases lt_trichotomy n 0 with hn | rfl | hn
      · have hneg : (-n).tmod d = -(n.tmod d) := Int.neg_tmod n d
        have hnonneg := Int.tmod_nonneg (a := -n) d (by omega)
        rw [Int.sign_eq_neg_one_of_neg hn, Int.sign_eq_neg_one_of_neg (by omega)]
      · exact absurd (Int.zero_tmod d) hz
      · have hnonneg := Int.tmod_nonneg d (le_of_lt hn)
        rw [Int.sign_eq_one_of_pos hn, Int.sign_eq_one_of_pos (by omega)]

theorem remainder_fixed {r : BitVec 64} {n d : ℤ} (ha : a.toInt = n)
    (hr : r.toInt = n.tmod d) (hd : d ≠ 0) (hd32 : d.natAbs ≤ 2 ^ 31) :
    (if (r.setWidth 32).slt 0 ≠ a.slt 0 then -r else r).setWidth 32 =
      BitVec.ofInt 32 (n.tmod d) := by
  obtain ⟨habs, hsign⟩ := tmod_sign n d hd
  have hsmall : (r.setWidth 32).toInt = n.tmod d := by
    rw [setWidth_eq_ofInt, BitVec.toInt_ofInt, hr]
    exact Int.bmod_eq_of_le (by omega) (by omega)
  split
  next hne =>
    -- only a remainder of zero is negated
    have hz : n.tmod d = 0 := by
      refine hsign.resolve_right fun hs => hne ?_
      rw [slt_eq_decide, slt_eq_decide, hsmall, ha]
      refine decide_eq_decide.2 ?_
      show n.tmod d < 0 ↔ n < 0
      rw [← Int.sign_eq_neg_one_iff_neg, ← Int.sign_eq_neg_one_iff_neg, hs]
    have hr0 : r = 0 := BitVec.toInt_inj.1 (hr.trans (hz.trans BitVec.toInt_zero.symm))
    rw [hr0, hz]
    decide
  next => rw [setWidth_eq_ofInt, hr]

theorem natAbs_value_le (h : Signed extra) : (value extra src).natAbs ≤ 2 ^ 31 := by
  have hge : -2 ^ 31 ≤ src.toInt := le_toInt src
  have hlt : src.toInt < 2 ^ 31 := toInt_lt
  rw [value_signed h]
  omega

theorem value_ne_zero (hsrc : src ≠ 0) : value extra src ≠ 0 := by
  unfold value
  split
  · intro h0
    exact hsrc (BitVec.toInt_inj.1 (h0.trans BitVec.toInt_zero.symm))
  · intro h0
    exact hsrc (BitVec.eq_of_toNat_eq (Int.ofNat_eq_zero.1 h0))

/-- **The signed variant.** -/
theorem m68kDivl_signed (hsrc : src ≠ 0) (h : Signed extra) : m68kDivl s src extra =
      if dividend s extra = -2 ^ 63 ∧
      value extra src = -1 then .trap else .done (result s src extra) := by
  have ha := toInt_dividend (s := s) h
  have hd : (src.signExtend 64).toInt = value extra src := by
    rw [value_signed h, toInt_signExtend_of_le (by decide)]
  unfold m68kDivl
  rw [if_neg hsrc, if_pos (show extra &&& 0x800 ≠ 0 from h)]
  dsimp only
  generalize withHigh s extra ((s.dreg (quotReg extra)).signExtend 64) = a at ha ⊢
  generalize src.signExtend 64 = d at hd ⊢
  have htrap : a = BitVec.intMin 64 ∧ d = -1 ↔ dividend s extra = -2 ^ 63 ∧
      value extra src = -1 := by
    rw [← toInt_inj, ← toInt_inj, ha, hd]
    exact Iff.rfl
  by_cases hov : dividend s extra = -2 ^ 63 ∧ value extra src = -1
  · rw [if_pos (htrap.2 hov), if_pos hov]
  · rw [if_neg (mt htrap.1 hov), if_neg hov]
    have hquot : (a.sdiv d).toInt = quotient s src extra := by
      rw [toInt_sdiv_of_ne_or_ne a d (not_and_or.1 (mt htrap.1 hov)), ha, hd, quotient]
    have hrem : (a.srem d).toInt = (dividend s extra).tmod (value extra src) := by
      rw [toInt_srem, ha, hd]
    have hholds : Holds32 extra (quotient s src extra) ↔
        -2 ^ 31 ≤ quotient s src extra ∧ quotient s src extra < 2 ^ 31 := by
      rw [Holds32, if_pos h]
    rw [result]
    by_cases hfit : Holds32 extra (quotient s src extra)
    · have hlow : ¬ (a.sdiv d &&& 0xffffffff80000000 ≠ 0 ∧
          a.sdiv d &&& 0xffffffff80000000 ≠ 0xffffffff80000000) := by
        rw [high_iff, hquot, not_not]
        exact hholds.1 hfit
      rw [if_pos hfit, if_neg hlow, setWidth_eq_ofInt (a.sdiv d), hquot,
        remainder_fixed ha hrem (value_ne_zero hsrc) (natAbs_value_le h), remainder]
    · have hhigh : a.sdiv d &&& 0xffffffff80000000 ≠ 0 ∧
          a.sdiv d &&& 0xffffffff80000000 ≠ 0xffffffff80000000 := by
        rw [high_iff, hquot]
        exact mt hholds.2 hfit
      rw [if_neg hfit, if_pos hhigh]

/-! ## The unsigned variant -/

theorem toNat_dividend (h : ¬ Signed extra) :
    ((withHigh s extra ((s.dreg (quotReg extra)).setWidth 64)).toNat : ℤ) = dividend s extra := by
  unfold dividend
  split
  next hq => rw [withHigh_quad hq (setWidth_setWidth_of_le _ (by decide)), value_unsigned h]
  next hq => rw [withHigh_long hq, value_unsigned h, toNat_setWidth_of_le (by decide)]

theorem setWidth_eq_ofInt_toNat (x : BitVec 64) : x.setWidth 32 = BitVec.ofInt 32 x.toNat := by
  rw [ofInt_natCast, ofNat_toNat]

theorem m68kDivl_unsigned (hsrc : src ≠ 0) (h : ¬ Signed extra) :
    m68kDivl s src extra = .done (result s src extra) := by
  have ha := toNat_dividend (s := s) h
  have hd : ((src.setWidth 64).toNat : ℤ) = value extra src := by
    rw [value_unsigned h, toNat_setWidth_of_le (by decide)]
  unfold m68kDivl
  rw [if_neg hsrc, if_neg (show ¬ extra &&& 0x800 ≠ 0 from h)]
  dsimp only
  generalize withHigh s extra ((s.dreg (quotReg extra)).setWidth 64) = a at ha ⊢
  generalize src.setWidth 64 = d at hd ⊢
  have hquot : ((a / d).toNat : ℤ) = quotient s src extra := by
    rw [toNat_udiv, Int.ofNat_tdiv, ha, hd, quotient]
  have hrem : ((a % d).toNat : ℤ) = remainder s src extra := by
    rw [toNat_umod, Int.ofNat_tmod, ha, hd, remainder]
  have hholds : 0xffffffff < a / d ↔ ¬ Holds32 extra (quotient s src extra) := by
    rw [Holds32, if_neg h, ← hquot, lt_def]
    show 4294967295 < (a / d).toNat ↔ _
    omega
  rw [result, setWidth_eq_ofInt_toNat, setWidth_eq_ofInt_toNat, hquot, hrem]
  by_cases hfit : Holds32 extra (quotient s src extra)
  · rw [if_pos hfit, if_neg (mt hholds.1 (not_not.2 hfit))]
  · rw [if_neg hfit, if_pos (hholds.2 hfit)]

theorem m68kDivl_eq (hsrc : src ≠ 0) :
    m68kDivl s src extra = if HostOverflow s src extra then .trap
      else .done (result s src extra) := by
  by_cases h : Signed extra
  · rw [m68kDivl_signed hsrc h]
    exact if_congr (and_iff_right h).symm rfl rfl
  · rw [m68kDivl_unsigned hsrc h, if_neg fun hov => h hov.1]

/-! ## Exact divisions -/

/-- What a division by `src` has to do: there are a quotient and a remainder that is smaller than
    the divisor and zero or of the sign of the dividend; if the quotient fits, both are stored, the
    quotient last, and otherwise `V` is set and the registers are left. -/
def Divides (s : Regs) (src : U32) (extra : U16) : Outcome → Prop
  | .done t => ∃ q r : ℤ, dividend s extra = q * value extra src + r ∧
      r.natAbs < (value extra src).natAbs ∧
      (r = 0 ∨ r.sign = (dividend s extra).sign) ∧
      (Holds32 extra q → t.vflg = false ∧ value extra (t.dreg (quotReg extra)) = q ∧
        (remReg extra ≠ quotReg extra → value extra (t.dreg (remReg extra)) = r) ∧
        ∀ i, i ≠ quotReg extra → i ≠ remReg extra → t.dreg i = s.dreg i) ∧
      (¬ Holds32 extra q → t.vflg = true ∧ t.dreg = s.dreg)
  | .exception => False
  | .trap => False

theorem value_ofInt {q : ℤ} (h : Holds32 extra q) : value extra (BitVec.ofInt 32 q) = q := by
  unfold Holds32 at h
  unfold value
  split at h
  next hs =>
    rw [if_pos hs, BitVec.toInt_ofInt]
    exact Int.bmod_eq_of_le (by omega) (by omega)
  next hs =>
    rw [if_neg hs, toNat_ofInt]
    omega

theorem divided_quotReg (quot rem : U32) : (s.divided extra quot rem).dreg (quotReg extra) = quot :=
  update_self ..

theorem divided_remReg {quot rem : U32} (h : remReg extra ≠ quotReg extra) :
    (s.divided extra quot rem).dreg (remReg extra) = rem :=
  (update_of_ne h ..).trans (update_self ..)

theorem divided_of_ne {quot rem : U32} {i : Fin 8} (hq : i ≠ quotReg extra)
    (hr : i ≠ remReg extra) : (s.divided extra quot rem).dreg i = s.dreg i :=
  (update_of_ne hq ..).trans (update_of_ne hr ..)

theorem holds32_remainder (hsrc : src ≠ 0) : Holds32 extra (remainder s src extra) := by
  obtain ⟨habs, hsign⟩ := tmod_sign (dividend s extra) (value extra src) (value_ne_zero hsrc)
  rw [← remainder] at habs hsign
  unfold Holds32
  split
  next h =>
    have hle : (value extra src).natAbs ≤ 2 ^ 31 := natAbs_value_le h
    omega
  next h =>
    have hnonneg : 0 ≤ remainder s src extra := by
      refine Int.tmod_nonneg _ ?_
      unfold dividend
      split <;> rw [value_unsigned h] <;> exact Int.natCast_nonneg _
    rw [value_unsigned h] at habs
    omega

theorem divides_result (hsrc : src ≠ 0) : Divides s src extra (.done (result s src extra)) := by
  obtain ⟨habs, hsign⟩ := tmod_sign (dividend s extra) (value extra src) (value_ne_zero hsrc)
  refine ⟨quotient s src extra, remainder s src extra, ?_, habs, hsign, fun hfit => ?_,
    fun hfit => ?_⟩
  · rw [quotient, remainder, mul_comm]
    exact (Int.mul_tdiv_add_tmod _ _).symm
  · rw [result, if_pos hfit]
    refine ⟨rfl, ?_, fun hne => ?_, fun i hq hr => ?_⟩
    · rw [divided_quotReg, value_ofInt hfit]
    · rw [divided_remReg hne, value_ofInt (holds32_remainder hsrc)]
    · exact divided_of_ne hq hr
  · rw [result, if_neg hfit]
    exact ⟨rfl, rfl⟩

/-- **Exact divisions.**  `m68k_divl` divides exactly if the host division does not overflow, which
    it does only for the dividend `-2 ^ 63` and the divisor `-1` of the signed 64-bit form. -/
theorem divl_exact_iff (s : Regs) (src : U32) (extra : U16) (hsrc : src ≠ 0) :
    Divides s src extra (m68kDivl s src extra) ↔ ¬ HostOverflow s src extra := by
  rw [m68kDivl_eq hsrc]
  split
  next hov => exact iff_of_false id (not_not.2 hov)
  next hov => exact iff_of_true (divides_result hsrc) hov

/-- `DIVS.L D1,D2:D0` of -100 by 7. -/
theorem divl_hundred :
    let s : Regs :=
      ⟨fun i => if i = 0 then -100 else if i = 2 then -1 else 7, false, false, false, false⟩
    Divides s 7 0x0c02 (m68kDivl s 7 0x0c02) :=
  (divl_exact_iff _ 7 0x0c02 (by decide)).2 (by decide)

/-- `DIVS.L D1,D2:D0` of `-2 ^ 63` by -1. -/
theorem divl_traps :
    let s : Regs := ⟨fun i => if i = 2 then 0x80000000 else 0, false, false, false, false⟩
    m68kDivl s 0xffffffff 0x0c02 = .trap ∧
      ¬ Divides s 0xffffffff 0x0c02 (m68kDivl s 0xffffffff 0x0c02) := by
  intro s
  have htrap : m68kDivl s 0xffffffff 0x0c02 = .trap := by
    rw [m68kDivl_eq (by decide), if_pos (by decide)]
  rw [htrap]
  exact ⟨rfl, id⟩

end Aranym.LongArith
