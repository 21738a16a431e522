/-
  Addresses with their pages, and direct-mapped caches.
-/
import Mathlib.Data.BitVec

namespace Lib

section
open BitVec hiding add_sub_cancel

variable {w k : ℕ} {x y z : BitVec w}

/-- Two addresses are in the same page of `2 ^ k` bytes if they agree from bit `k` on. -/
def SamePage (k : ℕ) (x y : BitVec w) : Prop := x >>> k = y >>> k
deriving Decidable

theorem SamePage.refl (x : BitVec w) : SamePage k x x := rfl

section

variable (h : SamePage k x y)
include h

theorem SamePage.symm : SamePage k y x := Eq.symm h

theorem SamePage.trans (h' : SamePage k y z) : SamePage k x z := Eq.trans h h'

omit h in
theorem samePage_iff : SamePage k x y ↔ ∀ i, k ≤ i → x.getLsbD i = y.getLsbD i := by
  constructor
  · intro h i hi
    have := congrArg (fun v => v.getLsbD (i - k)) h
    simpa [Nat.add_sub_cancel' hi] using this
  · intro h
    apply eq_of_getLsbD_eq
    intro i _
    rw [getLsbD_ushiftRight, getLsbD_ushiftRight]
    exact h (k + i) (by omega)

omit h in
theorem samePage_iff_xor_lt : SamePage k x y ↔ (x ^^^ y).toNat < 2 ^ k := by
  have hzero : (x ^^^ y).toNat < 2 ^ k ↔ (x ^^^ y) >>> k = 0#w := by
    rw [← toNat_inj, toNat_ushiftRight, Nat.shiftRight_eq_div_pow, toNat_zero,
      Nat.div_eq_zero_iff_lt (Nat.two_pow_pos k)]
  rw [hzero, ushiftRight_xor_distrib, BitVec.xor_eq_zero_iff]
  rfl

omit h in
theorem samePage_iff_div : SamePage k x y ↔ x.toNat / 2 ^ k = y.toNat / 2 ^ k := by
  rw [SamePage, ← toNat_inj, toNat_ushiftRight, toNat_ushiftRight, Nat.shiftRight_eq_div_pow,
    Nat.shiftRight_eq_div_pow]

theorem SamePage.lt_iff {b : ℕ} (hb : 2 ^ k ∣ b) : x.toNat < b ↔ y.toNat < b := by
  obtain ⟨n, rfl⟩ := hb
  rw [Nat.mul_comm, ← Nat.div_lt_iff_lt_mul (Nat.two_pow_pos k), samePage_iff_div.1 h,
    Nat.div_lt_iff_lt_mul (Nat.two_pow_pos k)]

theorem SamePage.shift_and (j : ℕ) {m : BitVec w}
    (hm : ∀ i < w, m.getLsbD i = true → k ≤ j + i) : (x >>> j) &&& m = (y >>> j) &&& m := by
  apply eq_of_getLsbD_eq
  intro i hi
  rw [getLsbD_and, getLsbD_and, getLsbD_ushiftRight, getLsbD_ushiftRight]
  cases hmi : m.getLsbD i with
  | false => rw [Bool.and_false, Bool.and_false]
  | true => rw [samePage_iff.1 h _ (hm i hi hmi)]

theorem SamePage.and {m : BitVec w} (hm : ∀ i < w, m.getLsbD i = true → k ≤ i) :
    x &&& m = y &&& m := by
  have := h.shift_and 0 (m := m) (by simpa using hm)
  simpa using this

theorem SamePage.shift {j : ℕ} (hj : k ≤ j) : x >>> j = y >>> j := by
  apply eq_of_getLsbD_eq
  intro i _
  rw [getLsbD_ushiftRight, getLsbD_ushiftRight]
  exact samePage_iff.1 h _ (by omega)

theorem SamePage.xor (z : BitVec w) : SamePage k (x ^^^ z) (y ^^^ z) := by
  rw [samePage_iff] at h ⊢
  intro i hi
  rw [getLsbD_xor, getLsbD_xor, h i hi]

theorem SamePage.or (z : BitVec w) : SamePage k (z ||| x) (z ||| y) := by
  rw [samePage_iff] at h ⊢
  intro i hi
  rw [getLsbD_or, getLsbD_or, h i hi]

theorem SamePage.and_right (m : BitVec w) : SamePage k (x &&& m) (y &&& m) := by
  rw [samePage_iff] at h ⊢
  intro i hi
  rw [getLsbD_and, getLsbD_and, h i hi]

end

theorem page_add_offset (x m : BitVec w) : (x &&& ~~~m) + (x &&& m) = x := by
  have hdisj : (x &&& ~~~m) &&& (x &&& m) = 0#w := by
    apply eq_of_getLsbD_eq
    intro i hi
    simp only [getLsbD_and, getLsbD_not, getLsbD_zero]
    cases m.getLsbD i <;> simp
  rw [add_eq_or_of_and_eq_zero _ _ hdisj]
  apply eq_of_getLsbD_eq
  intro i hi
  simp only [getLsbD_or, getLsbD_and, getLsbD_not, hi, decide_true, Bool.true_and]
  cases m.getLsbD i <;> simp

/-- The difference of two pages, added to an address of the first. -/
theorem frame_add (d x m : BitVec w) :
    x + ((d &&& ~~~m) - (x &&& ~~~m)) = (d &&& ~~~m) ||| (x &&& m) := by
  have hdisj : (d &&& ~~~m) &&& (x &&& m) = 0#w := by
    apply eq_of_getLsbD_eq
    intro i hi
    simp only [getLsbD_and, getLsbD_not, getLsbD_zero]
    cases m.getLsbD i <;> simp
  rw [← add_eq_or_of_and_eq_zero _ _ hdisj]
  conv_lhs => enter [1]; rw [← page_add_offset x m]
  rw [add_right_comm, add_sub_cancel]

end

/-! ## Caches -/

variable {ι κ α : Type*} {index : κ → ι} {Hit Good : κ → α → Prop} {t t' : ι → α}

/-- Every line that answers for a key (`Hit`) is `Good` for it. -/
def Truthful (index : κ → ι) (Hit Good : κ → α → Prop) (t : ι → α) : Prop :=
  ∀ k, Hit k (t (index k)) → Good k (t (index k))

theorem Truthful.update [DecidableEq ι] (h : Truthful index Hit Good t) {i : ι} {l : α}
    (hl : ∀ k, index k = i → Hit k l → Good k l) :
    Truthful index Hit Good (Function.update t i l) := by
  intro k hk
  by_cases hi : index k = i
  · rw [hi, Function.update_self] at hk ⊢
    exact hl k hi hk
  · rw [Function.update_of_ne hi] at hk ⊢
    exact h k hk

theorem Truthful.clear (h : Truthful index Hit Good t)
    (ht : ∀ i, t' i = t i ∨ ∀ k, ¬ Hit k (t' i)) : Truthful index Hit Good t' := by
  intro k hk
  rcases ht (index k) with hi | hi
  · rw [hi] at hk ⊢
    exact h k hk
  · exact absurd hk (hi k)

end Lib
