/-
  Machine words.
-/
import Mathlib.Data.BitVec
import Mathlib.Tactic.NormNum

/-- An unsigned integer of 8 bits. -/
abbrev U8 := BitVec 8

/-- An unsigned integer of 16 bits. -/
abbrev U16 := BitVec 16

/-- An unsigned integer of 32 bits. -/
abbrev U32 := BitVec 32

namespace Lib

/-! ## Signed numbers that wrap round -/

section
variable {b v : ℤ}

/-- A signed number that wraps round at `b`. -/
def wrapAt (b v : ℤ) : ℤ := (v + b) % (2 * b) - b

/-- A number as an `int` of 32 bits has it. -/
def int (v : ℤ) : ℤ := wrapAt (2 ^ 31) v

theorem wrapAt_of_mem (h0 : -b ≤ v) (h : v < b) : wrapAt b v = v := by
  rw [wrapAt, Int.emod_eq_of_lt (by omega) (by omega)]
  omega

theorem wrapAt_of_ge (h : b ≤ v) (h2 : v < 3 * b) : wrapAt b v = v - 2 * b := by
  have hmod : (v + b) % (2 * b) = v + b - 2 * b := by
    rw [← Int.sub_emod_right (v + b) (2 * b), Int.emod_eq_of_lt (by omega) (by omega)]
  rw [wrapAt, hmod]
  omega

theorem int_of_mem (h : -2 ^ 31 ≤ v ∧ v < 2 ^ 31) : int v = v := wrapAt_of_mem h.1 h.2

end

/-! ## Words that fit into fewer bits -/

section
open Nat

variable {w n m k : ℕ} {x y : BitVec w}

/-- The value of `x` is below `2 ^ n`. -/
def Fits (n : ℕ) (x : BitVec w) : Prop := x.toNat < 2 ^ n
deriving Decidable

theorem Fits.mono (h : Fits n x) (hnm : n ≤ m) : Fits m x :=
  lt_of_lt_of_le h (Nat.pow_le_pow_right (by decide) hnm)

theorem fits_zero : Fits n (0#w) := Nat.two_pow_pos n

theorem fits_and_left (h : Fits n x) : Fits n (x &&& y) := by
  exact lt_of_le_of_lt and_le_left h

theorem fits_and_right (h : Fits n y) : Fits n (x &&& y) := by
  exact lt_of_le_of_lt and_le_right h

theorem fits_or (hx : Fits n x) (hy : Fits n y) : Fits n (x ||| y) := by
  exact or_lt_two_pow hx hy

theorem fits_ite {c : Prop} [Decidable c] (hx : Fits n x) (hy : Fits n y) :
    Fits n (if c then x else y) := by
  split_ifs
  · exact hx
  · exact hy

theorem fits_ushiftRight (h : Fits n x) : Fits n (x >>> k) := by
  rw [Fits, BitVec.toNat_ushiftRight, shiftRight_eq_div_pow]
  exact lt_of_le_of_lt (Nat.div_le_self _ _) h

theorem fits_shiftLeft (h : Fits n x) : Fits (n + k) (x <<< k) := by
  rw [Fits, BitVec.toNat_shiftLeft, shiftLeft_eq, Nat.pow_add]
  exact lt_of_le_of_lt (mod_le _ _) (Nat.mul_lt_mul_of_pos_right h (Nat.two_pow_pos k))

theorem fits_setWidth (h : Fits n x) : Fits n (x.setWidth m) := by
  rw [Fits, BitVec.toNat_setWidth]
  exact lt_of_le_of_lt (mod_le _ _) h

theorem fits_self (h : w ≤ n) : Fits n x := .mono x.isLt h

theorem fits_ofNat {a : ℕ} (h : a < 2 ^ n) : Fits n (BitVec.ofNat w a) := by
  exact lt_of_le_of_lt (mod_le _ _) h

theorem toNat_append {v : ℕ} (x : BitVec v) (y : BitVec w) :
    (x ++ y).toNat = x.toNat * 2 ^ w + y.toNat := by
  rw [BitVec.toNat_append, ← shiftLeft_add_eq_or_of_lt y.isLt, shiftLeft_eq]

theorem toNat_mul_of_fits (hx : Fits n x) (hy : Fits m y) (h : n + m ≤ w) :
    (x * y).toNat = x.toNat * y.toNat := by
  refine mod_eq_of_lt (lt_of_lt_of_le (Nat.mul_lt_mul'' hx hy) ?_)
  rw [← Nat.pow_add]
  exact Nat.pow_le_pow_right (by decide) h

theorem toNat_and_low (x : BitVec w) {m : BitVec w} (h : m.toNat = 2 ^ n - 1) :
    (x &&& m).toNat = x.toNat % 2 ^ n := by
  rw [BitVec.toNat_and, h, and_two_pow_sub_one_eq_mod]

theorem setWidth_and_low (x : BitVec w) {m : BitVec w} (h : m.toNat = 2 ^ n - 1) :
    (x &&& m).setWidth n = x.setWidth n := by
  refine BitVec.eq_of_toNat_eq ?_
  rw [BitVec.toNat_setWidth, toNat_and_low x h, mod_mod, BitVec.toNat_setWidth]

theorem toNat_and_high {m : BitVec w} (hx : Fits n x) (hm : m.toNat = (2 ^ (n - k) - 1) <<< k) :
    (x &&& m).toNat = x.toNat / 2 ^ k * 2 ^ k := by
  rw [BitVec.toNat_and, hm]
  refine eq_of_testBit_eq fun i => ?_
  rw [testBit_and, testBit_shiftLeft, testBit_two_pow_sub_one, testBit_mul_two_pow,
    testBit_div_two_pow]
  by_cases hi : k ≤ i
  · by_cases hn : i - k < n - k
    · simp [hi, hn]
    · have hbit : x.toNat.testBit i = false :=
        testBit_lt_two_pow (lt_of_lt_of_le hx (Nat.pow_le_pow_right (by decide) (by omega)))
      simp [hi, hn, hbit]
  · simp [hi]

theorem getLsbD_of_fits (h : Fits n x) (hk : n ≤ k) : x.getLsbD k = false := by
  exact testBit_lt_two_pow (lt_of_lt_of_le h (Nat.pow_le_pow_right (by decide) hk))

theorem fits_of_getLsbD (h : ∀ k, n ≤ k → x.getLsbD k = false) : Fits n x :=
  lt_pow_two_of_testBit _ fun k hk => h k hk

end

/-! ## Rotations by one bit -/

section
open BitVec Nat

variable {w i : ℕ} (x : BitVec w)

theorem getLsbD_rotateLeft_one (hi : i < w) :
    (x.rotateLeft 1).getLsbD i = x.getLsbD ((i + (w - 1)) % w) := by
  rw [getLsbD_rotateLeft]
  rcases (by omega : w = 1 ∨ 1 < w) with rfl | hw
  · obtain rfl : i = 0 := by omega
    rfl
  · rw [mod_eq_of_lt hw]
    by_cases h0 : i = 0
    · subst h0
      rw [Nat.zero_add, mod_eq_of_lt (by omega)]
      rfl
    · have hmod : (i + (w - 1)) % w = i - 1 := by
        rw [show i + (w - 1) = i - 1 + w by omega, add_mod_right, mod_eq_of_lt (by omega)]
      rw [hmod, decide_eq_false (by omega), decide_eq_true hi]
      rfl

theorem getLsbD_rotateRight_one (hi : i < w) :
    (x.rotateRight 1).getLsbD i = x.getLsbD ((i + 1) % w) := by
  rw [getLsbD_rotateRight]
  rcases (by omega : w = 1 ∨ 1 < w) with rfl | hw
  · obtain rfl : i = 0 := by omega
    rfl
  · rw [mod_eq_of_lt hw]
    by_cases hl : i = w - 1
    · have hmod : (i + 1) % w = i - (w - 1) := by
        rw [show i + 1 = w by omega, mod_self]
        omega
      rw [hmod, decide_eq_false (by omega), decide_eq_true hi]
      rfl
    · rw [mod_eq_of_lt (by omega : i + 1 < w), decide_eq_true (by omega : i < w - 1), Nat.add_comm]
      rfl

theorem rotateRight_rotateLeft_one : (x.rotateLeft 1).rotateRight 1 = x := by
  refine eq_of_getLsbD_eq fun i hi => ?_
  rw [getLsbD_rotateRight_one _ hi, getLsbD_rotateLeft_one _ (mod_lt _ (by omega)), mod_add_mod,
    show i + 1 + (w - 1) = i + w by omega, add_mod_right, mod_eq_of_lt hi]

theorem rotateLeft_rotateRight_one : (x.rotateRight 1).rotateLeft 1 = x := by
  refine eq_of_getLsbD_eq fun i hi => ?_
  rw [getLsbD_rotateLeft_one _ hi, getLsbD_rotateRight_one _ (mod_lt _ (by omega)), mod_add_mod,
    show i + (w - 1) + 1 = i + w by omega, add_mod_right, mod_eq_of_lt hi]

theorem getLsbD_iterate_rotateLeft (k : ℕ) (hi : i < w) :
    ((rotateLeft · 1)^[k] x).getLsbD i = x.getLsbD ((i + k * (w - 1)) % w) := by
  induction k generalizing i with
  | zero => rw [Nat.zero_mul, Nat.add_zero, mod_eq_of_lt hi, Function.iterate_zero_apply]
  | succ k ih =>
    rw [Function.iterate_succ_apply', getLsbD_rotateLeft_one _ hi,
      ih (mod_lt _ (by omega)), mod_add_mod, Nat.succ_mul, Nat.add_assoc, Nat.add_comm (w - 1)]

theorem rotateLeft_period : (rotateLeft · 1)^[w] x = x := by
  refine eq_of_getLsbD_eq fun i hi => ?_
  rw [getLsbD_iterate_rotateLeft x w hi, add_mul_mod_self_left, mod_eq_of_lt hi]

theorem getLsbD_of_rotateLeft_eq {x : BitVec w} (h : x.rotateLeft 1 = x) (hi : i < w) :
    x.getLsbD i = x.getLsbD 0 := by
  induction i with
  | zero => rfl
  | succ i ih =>
    have hstep := getLsbD_rotateLeft_one x hi
    rw [h, show i + 1 + (w - 1) = i + w by omega, add_mod_right, mod_eq_of_lt (by omega)] at hstep
    exact hstep.trans (ih (by omega))

theorem rotateLeft_one_eq_self_iff : x.rotateLeft 1 = x ↔ x = 0#w ∨ x = allOnes w := by
  constructor
  · intro h
    cases h0 : x.getLsbD 0 with
    | false =>
      refine .inl (eq_of_getLsbD_eq fun i hi => ?_)
      rw [getLsbD_of_rotateLeft_eq h hi, h0, getLsbD_zero]
    | true =>
      refine .inr (eq_of_getLsbD_eq fun i hi => ?_)
      rw [getLsbD_of_rotateLeft_eq h hi, h0, getLsbD_allOnes, decide_eq_true hi]
  · rintro (rfl | rfl)
    · refine eq_of_getLsbD_eq fun i hi => ?_
      rw [getLsbD_rotateLeft_one _ hi, getLsbD_zero, getLsbD_zero]
    · refine eq_of_getLsbD_eq fun i hi => ?_
      rw [getLsbD_rotateLeft_one _ hi, getLsbD_allOnes, getLsbD_allOnes,
        decide_eq_true (mod_lt _ (by omega)), decide_eq_true hi]

end

/-! ## Counting with the bits in reverse order -/

section
open BitVec

variable {w : ℕ}

/-- The successor of `x`, with the bits in reverse order. -/
def revSucc (x : BitVec w) : BitVec w := (x.reverse + 1).reverse

theorem iterate_revSucc (x : BitVec w) (j : ℕ) :
    revSucc^[j] x = (x.reverse + BitVec.ofNat w j).reverse := by
  induction j with
  | zero => simp
  | succ j ih =>
    rw [Function.iterate_succ_apply', ih, revSucc, reverse_reverse_eq, BitVec.add_assoc, ofNat_add]
    rfl

theorem reverse_inj {x y : BitVec w} : x.reverse = y.reverse ↔ x = y := by
  refine ⟨fun h => ?_, fun h => h ▸ rfl⟩
  rw [← x.reverse_reverse_eq, h, y.reverse_reverse_eq]

theorem revSucc_period (x : BitVec w) : revSucc^[2 ^ w] x = x := by
  have hfull : BitVec.ofNat w (2 ^ w) = 0#w := by
    refine BitVec.eq_of_toNat_eq ?_
    rw [toNat_ofNat, Nat.mod_self, toNat_zero]
  rw [iterate_revSucc, hfull, BitVec.add_zero, reverse_reverse_eq]

theorem revSucc_visits (x y : BitVec w) : ∃! j, j < 2 ^ w ∧ revSucc^[j] x = y := by
  have hiff : ∀ j, revSucc^[j] x = y ↔ .ofNat w j = y.reverse - x.reverse := by
    intro j
    rw [iterate_revSucc, ← reverse_inj, reverse_reverse_eq, BitVec.eq_sub_iff_add_eq,
      BitVec.add_comm]
  refine ⟨(y.reverse - x.reverse).toNat, ⟨isLt _, (hiff _).2 ?_⟩, ?_⟩
  · rw [ofNat_toNat, setWidth_eq]
  · rintro j ⟨hj, hy⟩
    rw [← (hiff j).1 hy, toNat_ofNat, Nat.mod_eq_of_lt hj]

theorem revSucc_revSucc_iff (x : BitVec w) : revSucc (revSucc x) = x ↔ w ≤ 1 := by
  have htwo : revSucc (revSucc x) = (x.reverse + BitVec.ofNat w 2).reverse := iterate_revSucc x 2
  rw [htwo, ← reverse_inj, reverse_reverse_eq, BitVec.add_right_eq_self, ← toNat_inj,
    toNat_ofNat, toNat_zero]
  constructor
  · intro hmod
    by_contra hw
    have hlt : 2 ^ 1 < 2 ^ w := Nat.pow_lt_pow_right (by decide) (by omega)
    exact absurd ((Nat.mod_eq_of_lt hlt).symm.trans hmod) (by decide)
  · intro hw
    rcases (by omega : w = 0 ∨ w = 1) with rfl | rfl <;> rfl

end

/-! ## Looking for a number that is not taken -/

variable {w : ℕ} (taken : BitVec w → Bool) (width : BitVec w)

/-- The first free number among `a`, `a + width`, ..., with at most `n` steps. -/
def probe : ℕ → BitVec w → BitVec w
  | 0, a => a
  | n + 1, a => if taken a then probe n (a + width) else a

variable {taken width}

theorem taken_of_probe (n : ℕ) : ∀ {a : BitVec w}, taken (probe taken width n a) = true →
    ∀ i ≤ n, taken (a + BitVec.ofNat w i * width) = true := by
  induction n with
  | zero =>
    intro a h i hi
    obtain rfl := Nat.le_zero.1 hi
    simpa [probe] using h
  | succ n ih =>
    intro a h i hi
    rw [probe] at h
    by_cases ha : taken a = true
    · rw [if_pos ha] at h
      cases i with
      | zero => simpa using ha
      | succ i =>
        have hnext := ih h i (Nat.le_of_succ_le_succ hi)
        have hsum : a + BitVec.ofNat w (i + 1) * width = a + width + BitVec.ofNat w i * width := by
          rw [BitVec.ofNat_add, add_mul, BitVec.one_mul, add_comm (.ofNat w i * width), add_assoc]
        rwa [hsum]
    · rw [if_neg ha] at h
      exact absurd h ha

theorem probes_injective {inverse : BitVec w} (hinv : width * inverse = 1) (a : BitVec w) {i j : ℕ}
    (hi : i < 2 ^ w) (hj : j < 2 ^ w)
    (h : a + BitVec.ofNat w i * width = a + BitVec.ofNat w j * width) : i = j := by
  have hmul : BitVec.ofNat w i * width * inverse = BitVec.ofNat w j * width * inverse := by
    rw [add_left_cancel h]
  rw [mul_assoc, mul_assoc, hinv, mul_one, mul_one] at hmul
  have hnat := congrArg BitVec.toNat hmul
  rwa [BitVec.toNat_ofNat, BitVec.toNat_ofNat, Nat.mod_eq_of_lt hi, Nat.mod_eq_of_lt hj] at hnat

theorem probe_free {inverse : BitVec w} (hinv : width * inverse = 1) {keys : List (BitVec w)}
    (hkeys : ∀ a, taken a = true → a ∈ keys) (hlen : keys.length < 2 ^ w) (a : BitVec w) :
    taken (probe taken width keys.length a) = false := by
  by_contra h
  have hall := taken_of_probe _ (Bool.not_eq_false _ ▸ h)
  have hnodup : ((List.range (keys.length + 1)).map
      fun i => a + BitVec.ofNat w i * width).Nodup := by
    refine .map_on ?_ List.nodup_range
    intro i hi j hj heq
    exact probes_injective hinv a (by have := List.mem_range.1 hi; omega)
      (by have := List.mem_range.1 hj; omega) heq
  have hsub : ((List.range (keys.length + 1)).map
      fun i => a + BitVec.ofNat w i * width) ⊆ keys := by
    intro b hb
    obtain ⟨i, hi, rfl⟩ := List.mem_map.1 hb
    exact hkeys _ (hall i (Nat.le_of_lt_succ (List.mem_range.1 hi)))
  have hle := (hnodup.subperm hsub).length_le
  rw [List.length_map, List.length_range] at hle
  omega

/-! ## Sets of bits, the highest one first -/

section
open BitVec hiding lt_of_getLsbD not_not

variable {w : ℕ}

/-- Bit `j` is the highest set bit of `x`. -/
def IsTop (x : BitVec w) (j : ℕ) : Prop :=
  x.getLsbD j = true ∧ ∀ k, j < k → x.getLsbD k = false

/-- `j` is above every bit of `y`. -/
def Above (j : ℕ) (y : BitVec w) : Prop := ∀ k, y.getLsbD k = true → k < j

variable {j : ℕ} {y : BitVec w}

theorem above_iff_lt : Above j y ↔ y.toNat < 2 ^ j := by
  constructor
  · intro h
    refine Nat.lt_pow_two_of_testBit _ fun k hk => ?_
    by_contra hb
    have := h k (by simpa [BitVec.getLsbD] using hb)
    omega
  · intro h k hk
    by_contra hkj
    have hle : 2 ^ k ≤ y.toNat := Nat.ge_two_pow_of_testBit (by simpa [BitVec.getLsbD] using hk)
    have : 2 ^ j ≤ 2 ^ k := Nat.pow_le_pow_right (by norm_num) (by omega)
    omega

theorem toNat_bit (h : j < w) : (1#w <<< j).toNat = 2 ^ j := by
  have h1 : 1 < 2 ^ w := Nat.one_lt_two_pow (by omega)
  have h2 : 2 ^ j < 2 ^ w := Nat.pow_lt_pow_right (by norm_num) h
  simp [toNat_shiftLeft, Nat.shiftLeft_eq, Nat.mod_eq_of_lt h1, Nat.mod_eq_of_lt h2]

theorem above_iff_not_le (h : j < w) : Above j y ↔ ¬ 1#w <<< j ≤ y := by
  rw [above_iff_lt, le_def, toNat_bit h, not_le]

variable {x : BitVec w}

theorem lt_of_getLsbD (h : x.getLsbD j) : j < w := by
  by_contra hj
  rw [getLsbD_of_ge x j (by omega)] at h; cases h

theorem getLsbD_bit (j k : ℕ) : (1#w <<< j).getLsbD k = (decide (k < w) && decide (k = j)) := by
  by_cases hk : k < w <;> by_cases hkj : k = j <;> simp [hk, hkj] <;> omega

theorem and_bit_eq_zero : x &&& (1#w <<< j) = 0#w ↔ x.getLsbD j = false := by
  constructor
  · intro h
    by_cases hj : j < w
    · have := congrArg (fun y => y.getLsbD j) h
      simpa [getLsbD_bit, hj] using this
    · exact getLsbD_of_ge x j (by omega)
  · intro h
    refine eq_of_getLsbD_eq fun k _ => ?_
    simp only [getLsbD_and, getLsbD_bit, getLsbD_zero]
    by_cases hkj : k = j <;> simp [hkj, h]

/-! ## The search for the highest bit -/

/-- The highest bit of `x` below `n`, looked for from the top. -/
def highest (x : BitVec w) : ℕ → Option ℕ
  | 0 => none
  | n + 1 => if x &&& (1#w <<< n) ≠ 0#w then some n else highest x n

theorem highest_some :
    ∀ {n j : ℕ}, highest x n = some j → (∀ k, n ≤ k → x.getLsbD k = false) → IsTop x j
  | n + 1, j, h, hx => by
    unfold highest at h
    split_ifs at h with hb
    · cases h
      refine ⟨?_, fun k hk => hx k hk⟩
      simpa [and_bit_eq_zero] using hb
    · refine highest_some h fun k hk => ?_
      rcases Nat.lt_or_eq_of_le hk with hk | rfl
      · exact hx k hk
      · rw [not_not, and_bit_eq_zero] at hb; exact hb

theorem highest_none : ∀ {n : ℕ}, highest x n = none → ∀ k, k < n → x.getLsbD k = false
  | n + 1, h, k, hk => by
    unfold highest at h
    split_ifs at h with hb
    rcases Nat.lt_or_eq_of_le (Nat.le_of_lt_succ hk) with hk | rfl
    · exact highest_none h k hk
    · rw [not_not, and_bit_eq_zero] at hb; exact hb

theorem getLsbD_highest : ∀ {n j : ℕ}, highest x n = some j → x.getLsbD j = true
  | n + 1, j, h => by
    unfold highest at h
    split_ifs at h with hb
    · cases h; simpa [and_bit_eq_zero] using hb
    · exact getLsbD_highest h

theorem highest_isTop (h : highest x w = some j) : IsTop x j :=
  highest_some h fun k hk => getLsbD_of_ge x k hk

theorem highest_eq_none (h : highest x w = none) : x = 0#w :=
  eq_of_getLsbD_eq fun k hk => by simpa using highest_none h k hk

theorem IsTop.le {k : ℕ} (h : IsTop x j) (hk : x.getLsbD k) : k ≤ j := by
  by_contra hkj
  have := h.2 k (by omega)
  rw [hk] at this; cases this

theorem Above.mono {k : ℕ} (h : Above j y) (hjk : j ≤ k) : Above k y :=
  fun i hi => lt_of_lt_of_le (h i hi) hjk

theorem isTop_zero_iff (hw : 0 < w) : IsTop x 0 ↔ x = 1#w := by
  constructor
  · rintro ⟨h0, hk⟩
    refine eq_of_getLsbD_eq fun k _ => ?_
    rcases Nat.eq_zero_or_pos k with rfl | hpos
    · rw [h0, getLsbD_one]; simp [hw]
    · rw [hk k hpos, getLsbD_one]; simp [Nat.ne_of_gt hpos]
  · rintro rfl
    refine ⟨by simp [hw], fun k hk => ?_⟩
    rw [getLsbD_one]; simp [Nat.ne_of_gt hk]

theorem above_zero_iff : Above 0 x ↔ x = 0#w := by
  constructor
  · intro h
    refine eq_of_getLsbD_eq fun k _ => ?_
    cases hb : x.getLsbD k with
    | false => simp
    | true => exact absurd (h k hb) (by omega)
  · rintro rfl k hk; simp at hk

theorem exists_isTop (h : x.getLsbD j) : ∃ k, IsTop x k ∧ j ≤ k := by
  cases hh : highest x w with
  | none => rw [highest_eq_none hh] at h; simp at h
  | some k => exact ⟨k, highest_isTop hh, (highest_isTop hh).le h⟩

end

/-! ## Words put together -/

theorem bitVec_append_inj {v w : ℕ} {x x' : BitVec v} {y y' : BitVec w} (h : x ++ y = x' ++ y') :
    x = x' ∧ y = y' := by
  constructor
  · have hx := congrArg (·.extractLsb' w v) h
    simpa only [BitVec.extractLsb'_append_eq_left] using hx
  · have hy := congrArg (·.extractLsb' 0 w) h
    simpa only [BitVec.extractLsb'_append_eq_right] using hy

end Lib
