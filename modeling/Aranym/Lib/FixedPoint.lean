/-
  Fixed-point arithmetic on integers and on words: carries in two steps, division
  by adding and subtracting, rounding, and shifts into a binade.
-/
import Mathlib.Data.BitVec
import Mathlib.Tactic.LinearCombination
import Mathlib.Tactic.Positivity
import Mathlib.Tactic.Ring
import Mathlib.Tactic.Zify

namespace Lib

open Int

/-! ## Carries -/

section Carries

variable {w : ℕ}

/-- `v` is no signed number of `w` bits. -/
def OutOf (w : ℕ) (v : ℤ) : Prop := v < -2 ^ (w - 1) ∨ 2 ^ (w - 1) ≤ v
deriving Decidable

theorem saddOverflow_iff (x y : BitVec w) :
    x.saddOverflow y = true ↔ OutOf w (x.toInt + y.toInt) := by
  simp only [BitVec.saddOverflow, OutOf, Bool.or_eq_true, decide_eq_true_eq]
  omega

theorem ssubOverflow_iff (x y : BitVec w) :
    x.ssubOverflow y = true ↔ OutOf w (x.toInt - y.toInt) := by
  simp only [BitVec.ssubOverflow, OutOf, Bool.or_eq_true, decide_eq_true_eq]
  omega

theorem toInt_ofInt_of_not_outOf {v : ℤ} (hw : 0 < w) (h : ¬ OutOf w v) :
    (BitVec.ofInt w v).toInt = v := by
  unfold OutOf at h
  exact BitVec.toInt_ofInt_eq_self hw (by omega) (by omega)

/-- The bits from `k` on are equal if and only if the number has `k + 1` bits. -/
theorem topBits_iff {k : ℕ} (hk : k < w) (v : BitVec w) :
    (v.toNat / 2 ^ k = 0 ∨ v.toNat / 2 ^ k = 2 ^ (w - k) - 1) ↔ ¬ OutOf (k + 1) v.toInt := by
  have hv := v.isLt
  have hpos : 0 < 2 ^ k := Nat.two_pow_pos k
  have hpow : 2 ^ w = 2 ^ (w - k) * 2 ^ k := by rw [← Nat.pow_add, Nat.sub_add_cancel hk.le]
  have hzero : v.toNat / 2 ^ k = 0 ↔ v.toNat < 2 ^ k := by
    rw [Nat.div_eq_zero_iff]
    omega
  have hones : v.toNat / 2 ^ k = 2 ^ (w - k) - 1 ↔ 2 ^ w - 2 ^ k ≤ v.toNat := by
    have hlt : v.toNat / 2 ^ k < 2 ^ (w - k) := Nat.div_lt_of_lt_mul (by rwa [Nat.mul_comm, ← hpow])
    have hle := Nat.le_div_iff_mul_le (x := 2 ^ (w - k) - 1) (y := v.toNat) hpos
    rw [Nat.sub_mul, Nat.one_mul, ← hpow] at hle
    omega
  have hint' : ((2 ^ k : ℕ) : ℤ) = 2 ^ k := Nat.cast_pow 2 k
  rw [hzero, hones, OutOf, Nat.add_sub_cancel, BitVec.toInt_eq_toNat_cond, ← hint']
  split_ifs <;> omega

theorem uaddOverflow_carry (hw : 0 < w) (x y : BitVec w) :
    (x.uaddOverflow y || (x + y).uaddOverflow 1) = true ↔ 2 ^ w ≤ x.toNat + y.toNat + 1 := by
  have hone : (1#w).toNat = 1 := BitVec.toNat_one hw
  have hsum := BitVec.toNat_add x y
  simp only [BitVec.uaddOverflow, Bool.or_eq_true, decide_eq_true_eq, BitVec.ofNat_eq_ofNat, hone]
  by_cases hlt : x.toNat + y.toNat < 2 ^ w
  · rw [Nat.mod_eq_of_lt hlt] at hsum
    omega
  · omega

theorem usubOverflow_borrow (hw : 0 < w) (x y : BitVec w) :
    (x.usubOverflow y || (x - y).usubOverflow 1) = true ↔ x.toNat < y.toNat + 1 := by
  have hone : (1#w).toNat = 1 := BitVec.toNat_one hw
  simp only [BitVec.usubOverflow, Bool.or_eq_true, decide_eq_true_eq, BitVec.ofNat_eq_ofNat, hone]
  by_cases hlt : x.toNat < y.toNat
  · omega
  · have hsub := BitVec.toNat_sub_of_le (x := x) (y := y) (by rw [BitVec.le_def]; omega)
    omega

theorem bmod_cases (hw : 0 < w) {v : ℤ} (hlo : -2 ^ w ≤ v) (hhi : v < 2 ^ w) : v.bmod (2 ^ w) =
    if v < -2 ^ (w - 1) then v + 2 ^ w else if 2 ^ (w - 1) ≤ v then v - 2 ^ w else v := by
  have hdouble : (2 : ℤ) ^ w = 2 * 2 ^ (w - 1) := by
    rw [← pow_succ', Nat.sub_add_cancel hw]
  have hcast : ((2 ^ w : ℕ) : ℤ) = 2 ^ w := Nat.cast_pow 2 w
  have hmod : v % 2 ^ w = if v < 0 then v + 2 ^ w else v := by
    split_ifs with hneg
    · rw [← add_emod_right, emod_eq_of_lt (by omega) (by omega)]
    · exact emod_eq_of_lt (by omega) hhi
  rw [bmod_def, hcast, hmod]
  split_ifs <;> omega

theorem saddOverflow_carry_iff (hw : 1 < w) (x y : BitVec w) :
    ((x.saddOverflow y || (x + y).saddOverflow 1) = true ↔ OutOf w (x.toInt + y.toInt + 1)) ↔
      x.toInt + y.toInt ≠ -2 ^ (w - 1) - 1 := by
  have hdouble : (2 : ℤ) ^ w = 2 * 2 ^ (w - 1) := by
    rw [← pow_succ', Nat.sub_add_cancel (by omega)]
  have hx := x.le_toInt
  have hx' := x.toInt_lt
  have hy := y.le_toInt
  have hy' := y.toInt_lt
  have hsum := BitVec.toInt_add x y
  rw [bmod_cases (by omega) (by omega) (by omega)] at hsum
  rw [Bool.or_eq_true, saddOverflow_iff, saddOverflow_iff, BitVec.ofNat_eq_ofNat,
    BitVec.toInt_one hw, hsum]
  unfold OutOf
  split_ifs <;> omega

theorem ssubOverflow_borrow_iff (hw : 1 < w) (x y : BitVec w) :
    ((x.ssubOverflow y || (x - y).ssubOverflow 1) = true ↔ OutOf w (x.toInt - y.toInt - 1)) ↔
      x.toInt - y.toInt ≠ 2 ^ (w - 1) := by
  have hdouble : (2 : ℤ) ^ w = 2 * 2 ^ (w - 1) := by
    rw [← pow_succ', Nat.sub_add_cancel (by omega)]
  have hx := x.le_toInt
  have hx' := x.toInt_lt
  have hy := y.le_toInt
  have hy' := y.toInt_lt
  have hsub := BitVec.toInt_sub (x := x) (y := y)
  rw [bmod_cases (by omega) (by omega) (by omega)] at hsub
  rw [Bool.or_eq_true, ssubOverflow_iff, ssubOverflow_iff, BitVec.ofNat_eq_ofNat,
    BitVec.toInt_one hw, hsub]
  unfold OutOf
  split_ifs <;> omega

end Carries

/-! ## Division -/

section Division

/-- The remainder is doubled, and the divisor added to a negative one and subtracted from another;
    the last bit of the quotient is shifted in.  The next bit says that the new remainder is not
    negative. -/
def divStep (D : ℤ) (s : ℤ × ℤ) : ℤ × ℤ :=
  let a := (if s.1 < 0 then 2 * s.1 + D else 2 * s.1 - D) + s.2
  (a, if a < 0 then 0 else 1)

/-- After `j` steps: the remainder `p` of `2 ^ j * N`, below it the bits `h` of the quotient, and
    the next bit. -/
structure Dividing (D N : ℤ) (j : ℕ) (p h c : ℤ) : Prop where
  aligned : 2 ^ j ∣ p
  lower : -D ≤ p
  upper : p < D
  bits : 0 ≤ h
  room : h < 2 ^ j
  bit : c = 0 ∨ c = 1
  remainder : p = 2 ^ j * N - (2 * h + c + if p < 0 then 1 else 0) * D

variable {D N p h c : ℤ} {j k : ℕ}

theorem Dividing.sign (hd : Dividing D N j p h c) : p + h < 0 ↔ p < 0 := by
  have hbits := hd.bits
  have hroom := hd.room
  refine ⟨fun hneg => by omega, fun hneg => ?_⟩
  obtain ⟨m, hm⟩ := hd.aligned
  have hpos : (0 : ℤ) < 2 ^ j := by positivity
  have hm' : m ≤ -1 := by
    by_contra hge
    have : 0 ≤ 2 ^ j * m := mul_nonneg hpos.le (by omega)
    omega
  have hle : 2 ^ j * m ≤ 2 ^ j * (-1) := mul_le_mul_of_nonneg_left hm' hpos.le
  omega

/-- The remainder and the bits are between the divisor and its opposite. -/
theorem Dividing.bounds (hd : Dividing D N j p h c) (hD : 2 ^ j ∣ D) : -D ≤ p + h ∧ p + h < D := by
  have hlower := hd.lower
  have hbits := hd.bits
  have hroom := hd.room
  refine ⟨by omega, ?_⟩
  have hgap : 2 ^ j ≤ D - p := le_of_dvd (by have := hd.upper; omega) (dvd_sub hD hd.aligned)
  omega

theorem Dividing.step (hd : Dividing D N j p h c) (hD : 2 ^ (j + 1) ∣ D) :
    ∃ p' c', divStep D (p + h, c) = (p' + (2 * h + c), c') ∧
    Dividing D N (j + 1) p' (2 * h + c) c' := by
  have hsign := hd.sign
  obtain ⟨haligned, hlower, hupper, hbits, hroom, hbit, hrem⟩ := hd
  have hpow : (2 : ℤ) ^ (j + 1) = 2 * 2 ^ j := pow_succ' 2 j
  set p' := if p < 0 then 2 * p + D else 2 * p - D with hp'
  have hstep : (if p + h < 0 then 2 * (p + h) + D else 2 * (p + h) - D) + c = p' + (2 * h + c) := by
    rw [hp']
    simp only [hsign]
    split_ifs <;> ring
  have hdvd : (2 : ℤ) ^ (j + 1) ∣ p' := by
    have h2 : (2 : ℤ) ^ (j + 1) ∣ 2 * p := by
      rw [hpow]
      exact mul_dvd_mul_left 2 haligned
    rw [hp']
    split_ifs
    · exact dvd_add h2 hD
    · exact dvd_sub h2 hD
  have hnext : p' = 2 ^ (j + 1) * N - (2 * (2 * h + c) + 1) * D := by
    rw [hp', hpow]
    split_ifs with hneg
    · rw [if_pos hneg] at hrem
      linear_combination 2 * hrem
    · rw [if_neg hneg] at hrem
      linear_combination 2 * hrem
  have hnew : Dividing D N (j + 1) p' (2 * h + c) (if p' < 0 then 0 else 1) := by
    refine ⟨hdvd, ?_, ?_, by omega, by omega, ?_, ?_⟩
    · rw [hp']; split_ifs <;> omega
    · rw [hp']; split_ifs <;> omega
    · split_ifs <;> simp
    · split_ifs with hneg
      · linear_combination hnext
      · linear_combination hnext
  refine ⟨p', _, ?_, hnew⟩
  have hsign' := hnew.sign
  unfold divStep
  dsimp only
  rw [hstep]
  simp only [hsign']

theorem dividing_iterate (h0 : 0 ≤ N) (hN : N < D) (hD : 2 ^ k ∣ D) (hj : j ≤ k) :
    ∃ p h c, (divStep D)^[j] (N, 0) = (p + h, c) ∧ Dividing D N j p h c := by
  induction j with
  | zero =>
    refine ⟨N, 0, 0, by simp, ⟨by simp, by omega, hN, le_rfl, by simp, .inl rfl, ?_⟩⟩
    rw [if_neg (by omega)]
    ring
  | succ j ih =>
    obtain ⟨p, h, c, hiter, hd⟩ := ih (by omega)
    obtain ⟨p', c', hstep, hd'⟩ := hd.step ((pow_dvd_pow 2 hj).trans hD)
    exact ⟨p', 2 * h + c, c', by rw [Function.iterate_succ_apply', hiter, hstep], hd'⟩

theorem divStep_run (h0 : 0 ≤ N) (hN : N < D) (hD : 2 ^ k ∣ D) :
    ((divStep D)^[k] (N, 0)).1 % 2 ^ k = 2 ^ k * N / D / 2 := by
  obtain ⟨p, h, c, hiter, hd⟩ := dividing_iterate h0 hN hD le_rfl
  obtain ⟨⟨m, hm⟩, hlower, hupper, hbits, hroom, hbit, hrem⟩ := hd
  have hquot : 2 ^ k * N / D = 2 * h + c := by
    have hpos : 0 < D := by omega
    by_cases hneg : p < 0
    · rw [if_pos hneg] at hrem
      exact ((Int.ediv_emod_unique hpos (r := p + D)).2
        ⟨by linear_combination hrem, by omega, by omega⟩).1
    · rw [if_neg hneg] at hrem
      exact ((Int.ediv_emod_unique hpos (r := p)).2
        ⟨by linear_combination hrem, by omega, by omega⟩).1
  rw [hiter, hquot]
  rw [hm, Int.add_comm, add_mul_emod_self_left, emod_eq_of_lt hbits hroom]
  omega

end Division

/-! ## Rounding -/

section Rounding

/-- `m * u` is the multiple of `u` that is nearest to `x`, and an even multiple if there are two. -/
structure NearestEven (u x m : ℤ) : Prop where
  nearest : ∀ k, |x - m * u| ≤ |x - k * u|
  even : ∀ k, k ≠ m → |x - k * u| = |x - m * u| → 2 ∣ m

variable {u h x : ℤ}

theorem nearestEven_of_half {m : ℤ} (hu : 0 < u) (hle : -u ≤ 2 * (x - m * u))
    (hge : 2 * (x - m * u) ≤ u)
    (htie : 2 * (x - m * u) = u ∨ 2 * (x - m * u) = -u → 2 ∣ m) : NearestEven u x m := by
  have hdist : ∀ k, k ≠ m → u ≤ |x - k * u| + |x - m * u| := by
    intro k hk
    have hone : 1 ≤ |k - m| := one_le_abs (sub_ne_zero.2 hk)
    calc u = 1 * |u| := by rw [one_mul, abs_of_pos hu]
      _ ≤ |k - m| * |u| := mul_le_mul_of_nonneg_right hone (abs_nonneg u)
      _ = |(x - m * u) - (x - k * u)| := by rw [← abs_mul]; congr 1; ring
      _ ≤ |x - m * u| + |x - k * u| := abs_sub _ _
      _ = |x - k * u| + |x - m * u| := add_comm _ _
  have habs : 2 * |x - m * u| ≤ u := by
    rcases abs_cases (x - m * u) with ⟨heq, -⟩ | ⟨heq, -⟩ <;> omega
  refine ⟨fun k => ?_, fun k hk heq => htie ?_⟩
  · by_cases hk : k = m
    · rw [hk]
    · have := hdist k hk
      omega
  · have := hdist k hk
    rcases abs_cases (x - m * u) with ⟨hcase, -⟩ | ⟨hcase, -⟩ <;> omega

/-- One half is added and the rest cut off; between two multiples the last bit of the result is
    cleared. -/
theorem nearestEven_half (hh : 0 < h) :
    NearestEven (2 * h) x (if (x + h) % (2 * h) =
      0 then (x + h) / (2 * h) / 2 * 2 else (x + h) / (2 * h)) := by
  have hlt := emod_lt_of_pos (x + h) (by omega : 0 < 2 * h)
  have hnonneg := emod_nonneg (x + h) (by omega : 2 * h ≠ 0)
  have hdiv := emod_add_mul_ediv (x + h) (2 * h)
  generalize (x + h) / (2 * h) = q at *
  generalize (x + h) % (2 * h) = r at *
  have hx : x - q * (2 * h) = r - h := by linear_combination -hdiv
  split_ifs with hr
  · rcases emod_two_eq_zero_or_one q with hq | hq
    · have heven : q / 2 * 2 = q := by omega
      rw [heven]
      refine nearestEven_of_half (by omega) ?_ ?_ fun _ => by omega
      · omega
      · omega
    · have hodd : q / 2 * 2 = q - 1 := by omega
      have hx' : x - (q - 1) * (2 * h) = r + h := by linear_combination hx
      rw [hodd]
      refine nearestEven_of_half (by omega) ?_ ?_ fun _ => by omega
      · omega
      · omega
  · refine nearestEven_of_half (by omega) ?_ ?_ fun htie => ?_
    · omega
    · omega
    · omega

theorem ofInt_floor {w k : ℕ} (hk : k ≤ w) (v : ℤ) {z : BitVec w}
    (hz : z.toNat = (BitVec.ofInt w v).toNat / 2 ^ k * 2 ^ k) :
    z = BitVec.ofInt w (v / 2 ^ k * 2 ^ k) := by
  have hk0 : (0 : ℤ) < 2 ^ k := by positivity
  have hw0 : (0 : ℤ) < 2 ^ w := by positivity
  have hpow : (2 : ℤ) ^ w = 2 ^ k * 2 ^ (w - k) := by rw [← pow_add, Nat.add_sub_cancel' hk]
  have hnonneg : 0 ≤ v % 2 ^ w := emod_nonneg _ hw0.ne'
  have hquot : v / 2 ^ k = v % 2 ^ w / 2 ^ k + 2 ^ (w - k) * (v / 2 ^ w) := by
    conv_lhs => rw [← emod_add_mul_ediv v (2 ^ w), hpow, mul_assoc,
      add_mul_ediv_left _ _ hk0.ne', ← hpow]
  have hle : v % 2 ^ w / 2 ^ k * 2 ^ k ≤ v % 2 ^ w := Int.ediv_mul_le _ hk0.ne'
  have hmod : v / 2 ^ k * 2 ^ k % 2 ^ w = v % 2 ^ w / 2 ^ k * 2 ^ k := by
    have hsum : v / 2 ^ k * 2 ^ k = v % 2 ^ w / 2 ^ k * 2 ^ k + 2 ^ w * (v / 2 ^ w) := by
      rw [hquot, hpow]
      ring
    rw [hsum, add_mul_emod_self_left]
    exact emod_eq_of_lt (by positivity) (hle.trans_lt (emod_lt_of_pos _ hw0))
  refine BitVec.eq_of_toNat_eq ?_
  have hcast : ((2 ^ w : ℕ) : ℤ) = 2 ^ w := Nat.cast_pow 2 w
  rw [hz, BitVec.toNat_ofInt, BitVec.toNat_ofInt, hcast, hmod]
  zify
  rw [toNat_of_nonneg hnonneg, toNat_of_nonneg (by positivity)]

/-- Rounding in a word of `w` bits to a multiple of `2 ^ (k + 1)`; `r` is the word with the half
    added. -/
theorem nearestEven_ofInt {w k : ℕ} (hk : k + 2 ≤ w) {r z : BitVec w}
    (hr : r = BitVec.ofInt w (x + 2 ^ k))
    (hz : z.toNat = if r.toNat % 2 ^ (k + 1) = 0 then r.toNat / 2 ^ (k + 2) * 2 ^ (k + 2)
      else r.toNat / 2 ^ (k + 1) * 2 ^ (k + 1)) :
    ∃ m, NearestEven (2 ^ (k + 1)) x m ∧ z = BitVec.ofInt w (m * 2 ^ (k + 1)) := by
  have hpow : (2 : ℤ) ^ (k + 1) = 2 * 2 ^ k := pow_succ' 2 k
  have hpow' : (2 : ℤ) ^ (k + 2) = 2 ^ (k + 1) * 2 := pow_succ 2 (k + 1)
  have hnear := nearestEven_half (x := x) (h := 2 ^ k) (by positivity)
  rw [← hpow] at hnear
  refine ⟨_, hnear, ?_⟩
  have hmod : r.toNat % 2 ^ (k + 1) = 0 ↔ (x + 2 ^ k) % 2 ^ (k + 1) = 0 := by
    have hdvd : (2 : ℤ) ^ (k + 1) ∣ 2 ^ w := pow_dvd_pow 2 (by omega)
    have hcast : ((2 ^ w : ℕ) : ℤ) = 2 ^ w := Nat.cast_pow 2 w
    have hval : (r.toNat : ℤ) = (x + 2 ^ k) % 2 ^ w := by
      rw [hr, BitVec.toNat_ofInt, hcast, toNat_of_nonneg (emod_nonneg _ (by positivity))]
    zify
    rw [hval, emod_emod_of_dvd _ hdvd]
  subst hr
  by_cases htie : (x + 2 ^ k) % 2 ^ (k + 1) = 0
  · rw [if_pos (hmod.2 htie)] at hz
    rw [if_pos htie, ofInt_floor hk _ hz, ediv_ediv_of_nonneg (by positivity), ← hpow',
      mul_assoc, ← pow_succ']
  · rw [if_neg (mt hmod.1 htie)] at hz
    rw [if_neg htie, ofInt_floor (by omega) _ hz]

end Rounding

/-! ## Normalisation -/

section Normalisation

variable {a b j k : ℕ} {v x : ℤ}

/-- `v` has more than `a + 2` bits. -/
def Extended (a : ℕ) (v : ℤ) : Prop := v < -2 ^ (a + 1) ∨ 2 ^ (a + 1) ≤ v
deriving Decidable

/-- `v` has less than `a + 2` bits. -/
def Unnormalized (a : ℕ) (v : ℤ) : Prop := -2 ^ a ≤ v ∧ v < 2 ^ a
deriving Decidable

/-- A shift to the right or to the left, with the number of shifts to the left so far. -/
def normStep (a : ℕ) (s : ℤ × ℤ) : ℤ × ℤ :=
  if Extended a s.1 then (s.1 / 2, s.2 - 1)
  else if Unnormalized a s.1 ∧ s.1 ≠ 0 then (s.1 * 2, s.2 + 1)
  else s

/-- `x` with its point moved by `s` places. -/
def shifted (x s : ℤ) : ℤ := if 0 ≤ s then x * 2 ^ s.toNat else x / 2 ^ (-s).toNat

/-- Shifts to the left only, with `j` to go at most. -/
structure Growing (a j : ℕ) (x : ℤ) (s : ℤ × ℤ) : Prop where
  notExtended : ¬ Extended a s.1
  bits : 2 ^ a ≤ s.1 * 2 ^ j ∨ s.1 * 2 ^ j < -2 ^ a ∨ s.1 = 0
  value : ∃ n : ℕ, s = (x * 2 ^ n, (n : ℤ))

/-- Shifts to the right only, with `j` to go at most. -/
structure Shrinking (a j : ℕ) (x : ℤ) (s : ℤ × ℤ) : Prop where
  notUnnormalized : ¬ Unnormalized a s.1
  bits : -2 ^ (a + 1 + j) ≤ s.1 ∧ s.1 < 2 ^ (a + 1 + j)
  value : ∃ n : ℕ, s = (x / 2 ^ n, -(n : ℤ))

variable {s : ℤ × ℤ}

theorem Growing.step (h : Growing a (j + 1) x s) : Growing a j x (normStep a s) := by
  obtain ⟨hext, hbits, n, rfl⟩ := h
  have hassoc : x * 2 ^ n * 2 ^ (j + 1) = x * 2 ^ n * 2 * 2 ^ j := by rw [pow_succ', mul_assoc _ 2]
  rw [normStep, if_neg hext]
  generalize hv : x * 2 ^ n = v at *
  split_ifs with hun
  · obtain ⟨⟨hlo, hhi⟩, hne⟩ := hun
    refine ⟨?_, ?_, n + 1, ?_⟩
    · unfold Extended
      omega
    · rw [hassoc] at hbits
      dsimp only
      omega
    · rw [← hv, pow_succ, mul_assoc]
      rfl
  · refine ⟨hext, ?_, n, by rw [hv]⟩
    dsimp only
    by_cases h0 : v = 0
    · exact .inr (.inr h0)
    · have hone : (1 : ℤ) ≤ 2 ^ j := one_le_pow₀ (by decide)
      have hnot : ¬ Unnormalized a v := fun hu => hun ⟨hu, h0⟩
      unfold Unnormalized at hnot
      rcases lt_or_gt_of_ne h0 with hneg | hpos
      · have hle : v * 2 ^ j ≤ v * 1 := mul_le_mul_of_nonpos_left hone hneg.le
        omega
      · have hle : v * 1 ≤ v * 2 ^ j := mul_le_mul_of_nonneg_left hone hpos.le
        omega

theorem Shrinking.step (h : Shrinking a (j + 1) x s) : Shrinking a j x (normStep a s) := by
  obtain ⟨hun, hbits, n, rfl⟩ := h
  have hpow' : (2 : ℤ) ^ (a + 1 + (j + 1)) = 2 * 2 ^ (a + 1 + j) := by rw [← add_assoc, pow_succ']
  have hhalf : x / 2 ^ (n + 1) = x / 2 ^ n / 2 := by
    rw [pow_succ, ediv_ediv_of_nonneg (by positivity)]
  rw [normStep]
  split_ifs with hext hun'
  · refine ⟨?_, ?_, n + 1, ?_⟩
    · unfold Unnormalized Extended at *
      omega
    · dsimp only
      omega
    · rw [hhalf]
      push_cast
      rw [neg_add, sub_eq_add_neg]
  · exact absurd hun'.1 hun
  · have hle : (2 : ℤ) ^ (a + 1) ≤ 2 ^ (a + 1 + j) := pow_le_pow_right₀ (by decide) (by omega)
    unfold Extended at hext
    exact ⟨hun, ⟨by dsimp only; omega, by dsimp only; omega⟩, n, rfl⟩

theorem Growing.run (h : Growing a k x s) : Growing a 0 x ((normStep a)^[k] s) := by
  induction k generalizing s with
  | zero => exact h
  | succ k ih => exact ih h.step

theorem Shrinking.run (h : Shrinking a k x s) : Shrinking a 0 x ((normStep a)^[k] s) := by
  induction k generalizing s with
  | zero => exact h
  | succ k ih => exact ih h.step

theorem growing_start (h : ¬ Extended a x) (hk : a + 1 ≤ k) : Growing a k x (x, 0) := by
  have hle : (2 : ℤ) ^ (a + 1) ≤ 2 ^ k := pow_le_pow_right₀ (by decide) hk
  refine ⟨h, ?_, 0, by simp⟩
  dsimp only
  rcases lt_trichotomy x 0 with hneg | rfl | hx
  · have hmul : x * 2 ^ k ≤ (-1) * 2 ^ k := mul_le_mul_of_nonneg_right (by omega) (by positivity)
    omega
  · exact .inr (.inr rfl)
  · have hmul : 1 * 2 ^ k ≤ x * 2 ^ k := mul_le_mul_of_nonneg_right (by omega) (by positivity)
    omega

theorem shrinking_start (h : Extended a x) (hlo : -2 ^ b ≤ x) (hhi : x < 2 ^ b)
    (hk : b ≤ a + 1 + k) : Shrinking a k x (x, 0) := by
  have hle : (2 : ℤ) ^ b ≤ 2 ^ (a + 1 + k) := pow_le_pow_right₀ (by decide) hk
  refine ⟨?_, ?_, 0, by simp⟩
  · unfold Extended Unnormalized at *
    omega
  · dsimp only
    omega

/-- `s` needs no more shifts. -/
def Normalized (a : ℕ) (v : ℤ) : Prop := ¬ Extended a v ∧ (Unnormalized a v → v = 0)

theorem normStep_of_normalized (h : Normalized a s.1) : normStep a s = s := by
  rw [normStep, if_neg h.1, if_neg fun hun => hun.2 (h.2 hun.1)]

/-- **Normalisation** ends, and it shifts in one direction only. -/
theorem normStep_run (hlo : -2 ^ b ≤ x) (hhi : x < 2 ^ b) (hk : a + 1 ≤ k) (hb : b ≤ a + 1 + k) :
    Normalized a ((normStep a)^[k] (x, 0)).1 ∧
      ((normStep a)^[k] (x, 0)).1 = shifted x ((normStep a)^[k] (x, 0)).2 := by
  by_cases hext : Extended a x
  · obtain ⟨hun, hbits, n, heq⟩ := (shrinking_start hext hlo hhi hb).run
    refine ⟨⟨?_, fun h => absurd h hun⟩, ?_⟩
    · unfold Extended
      rw [add_zero] at hbits
      omega
    · rw [heq, shifted]
      split_ifs with h0
      · have hn : n = 0 := by omega
        subst hn
        simp
      · rw [neg_neg, toNat_natCast]
  · obtain ⟨hnext, hbits, n, heq⟩ := (growing_start hext hk).run
    refine ⟨⟨hnext, fun hun => ?_⟩, ?_⟩
    · unfold Unnormalized at hun
      omega
    · rw [heq, shifted, if_pos (by dsimp only; omega)]
      simp

end Normalisation

/-! ## Long division, one bit at a time -/

variable {W d n i hi lo hi' lo' q w : ℕ}

/-- After `i` steps of the division of `n` by `d`: the digits `hi` and `lo` are left, and `q` are
    the bits of the quotient so far. -/
structure LongDivision (W d n i hi lo q : ℕ) : Prop where
  hi_lt : hi < d
  lo_lt : lo < W
  quot_lt : q < 2 ^ i
  eq : (q * d + hi) * W + lo = n * 2 ^ i

namespace LongDivision

theorem start (hhi : hi < d) (hlo : lo < W) : LongDivision W d (hi * W + lo) 0 hi lo 0 where
  hi_lt := hhi
  lo_lt := hlo
  quot_lt := Nat.one_pos
  eq := by ring

theorem doubled_lt (h : LongDivision W d n i hi lo q) (hs : hi' * W + lo' = 2 * (hi * W + lo)) :
    hi' < 2 * d := by
  have hlo := h.lo_lt
  refine Nat.lt_of_mul_lt_mul_right (a := W) ?_
  calc hi' * W ≤ 2 * (hi * W + lo) := by omega
    _ < 2 * (hi * W + W) := by omega
    _ = 2 * ((hi + 1) * W) := by ring
    _ ≤ 2 * (d * W) := Nat.mul_le_mul_left 2 (Nat.mul_le_mul_right W h.hi_lt)
    _ = 2 * d * W := by ring

theorem step_keep (h : LongDivision W d n i hi lo q) (hs : hi' * W + lo' = 2 * (hi * W + lo))
    (hlo : lo' < W) (hd : hi' < d) : LongDivision W d n (i + 1) hi' lo' (2 * q) where
  hi_lt := hd
  lo_lt := hlo
  quot_lt := by
    have := h.quot_lt
    omega
  eq := by
    calc (2 * q * d + hi') * W + lo' = 2 * (q * d * W) + (hi' * W + lo') := by ring
      _ = 2 * ((q * d + hi) * W + lo) := by rw [hs]; ring
      _ = n * 2 ^ (i + 1) := by rw [h.eq]; ring

theorem step_sub (h : LongDivision W d n i hi lo q) (hs : hi' * W + lo' = 2 * (hi * W + lo))
    (hlo : lo' < W) (hd : d ≤ hi') : LongDivision W d n (i + 1) (hi' - d) lo' (2 * q + 1) where
  hi_lt := by
    have := h.doubled_lt hs
    omega
  lo_lt := hlo
  quot_lt := by
    have := h.quot_lt
    omega
  eq := by
    obtain ⟨r, rfl⟩ := Nat.exists_eq_add_of_le hd
    rw [Nat.add_sub_cancel_left]
    calc ((2 * q + 1) * d + r) * W + lo' = 2 * (q * d * W) + ((d + r) * W + lo') := by ring
      _ = 2 * ((q * d + hi) * W + lo) := by rw [hs]; ring
      _ = n * 2 ^ (i + 1) := by rw [h.eq]; ring

/-- **The end of the division.** -/
theorem finish (h : LongDivision (2 ^ w) d n w hi lo q) : q = n / d ∧ hi = n % d := by
  -- the lower digit has been used up
  have hlo : lo = 0 := by
    calc lo = ((q * d + hi) * 2 ^ w + lo) % 2 ^ w := by
          rw [Nat.mul_add_mod_self_right, Nat.mod_eq_of_lt h.lo_lt]
      _ = 0 := by rw [h.eq, Nat.mul_mod_left]
  have heq : q * d + hi = n := by
    refine Nat.eq_of_mul_eq_mul_right (Nat.two_pow_pos w) ?_
    rw [← h.eq, hlo, Nat.add_zero]
  have hd : 0 < d := Nat.zero_lt_of_lt h.hi_lt
  rw [← heq, Nat.mul_comm, Nat.mul_add_div hd, Nat.div_eq_of_lt h.hi_lt, Nat.mul_add_mod,
    Nat.mod_eq_of_lt h.hi_lt]
  exact ⟨rfl, rfl⟩

end LongDivision

end Lib
