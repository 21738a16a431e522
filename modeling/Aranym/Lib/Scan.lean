/-
  Drawing of lines and of the insides of outlines.
-/
import Aranym.Lib.Words
import Mathlib.Data.Int.Lemmas
import Mathlib.Tactic.Linarith
import Mathlib.Tactic.Ring

namespace Lib

/-! ## Accumulators of line drawing loops -/

section
open Int

/-- One step: the accumulator and the number of short steps. -/
def slope (b D d : ℤ) (p : ℤ × ℕ) : ℤ × ℕ :=
  if D ≤ wrapAt b (p.1 + d) then (wrapAt b (p.1 + d) - D, p.2 + 1) else (wrapAt b (p.1 + d), p.2)

/-- After `k` steps: `k * d / D` short ones, or less if the accumulator wrapped round. -/
def slopes (b D d : ℤ) (k : ℕ) : ℤ × ℕ := (slope b D d)^[k] (0, 0)

variable {b D d : ℤ}

theorem slopes_succ (k : ℕ) : slopes b D d (k + 1) = slope b D d (slopes b D d k) :=
  Function.iterate_succ_apply' _ _ _

section
variable (hd : 0 < d) (hdD : d ≤ D)
include hd hdD

theorem ediv_emod_add (p : ℤ) :
    if D ≤ p % D + d then (p + d) / D = p / D + 1 ∧ (p + d) % D = p % D + d - D
    else (p + d) / D = p / D ∧ (p + d) % D = p % D + d := by
  have hD : 0 < D := by omega
  have hr0 := emod_nonneg p (by omega : D ≠ 0)
  have hr1 := emod_lt_of_pos p hD
  have hdiv := emod_add_mul_ediv p D
  split_ifs with h
  · refine (Int.ediv_emod_unique hD).2 ⟨?_, by omega, by omega⟩
    rw [mul_add]
    omega
  · refine (Int.ediv_emod_unique hD).2 ⟨by omega, by omega, by omega⟩

theorem slopes_exact (k : ℕ) (h : ∀ j : ℕ, j < k → j * d % D + d < b) :
    slopes b D d k = (k * d % D, (k * d / D).toNat) := by
  induction k with
  | zero => simp [slopes]
  | succ k ih =>
    have hr0 := emod_nonneg (k * d) (by omega : D ≠ 0)
    have hq0 : 0 ≤ (k : ℤ) * d / D := ediv_nonneg (by positivity) (by omega)
    have hadd := ediv_emod_add hd hdD (k * d)
    have hnext : ((k + 1 : ℕ) : ℤ) * d = k * d + d := by push_cast; ring
    rw [slopes_succ, ih fun j hj => h j (by omega), slope, hnext]
    have hlt := h k (Nat.lt_succ_self k)
    rw [wrapAt_of_mem (by omega) hlt]
    split_ifs at hadd ⊢ with hge
    · rw [hadd.1, hadd.2, toNat_add hq0 (by norm_num)]
      rfl
    · rw [hadd.1, hadd.2]

theorem slopes_lag (hDb : D < b) (k : ℕ) :
    ∃ w : ℕ, (slopes b D d k).1 + (slopes b D d k).2 * D + 2 * b * w = k * d ∧
    (w = 0 → 0 ≤ (slopes b D d k).1) ∧ -b ≤ (slopes b D d k).1 ∧ (slopes b D d k).1 < D := by
  induction k with
  | zero =>
    exact ⟨0, by simp [slopes], by simp [slopes], by simp [slopes]; omega, by simp [slopes]; omega⟩
  | succ k ih =>
    obtain ⟨w, hsum, hw, hlo, hhi⟩ := ih
    rw [slopes_succ, slope]
    generalize slopes b D d k = p at hsum hw hlo hhi ⊢
    have hnext : ((k + 1 : ℕ) : ℤ) * d = k * d + d := by push_cast; ring
    rw [hnext, ← hsum]
    rcases lt_or_ge (p.1 + d) b with hlt | hge
    · rw [wrapAt_of_mem (by omega) hlt]
      split_ifs with h
      · refine ⟨w, ?_, ?_, ?_, ?_⟩
        · push_cast; ring
        · omega
        · dsimp only; omega
        · dsimp only; omega
      · exact ⟨w, by ring,
          fun h0 => by have := hw h0; dsimp only; omega, by dsimp only; omega, by dsimp only; omega⟩
    · rw [wrapAt_of_ge hge (by omega), if_neg (by omega)]
      exact ⟨w + 1, by push_cast; ring,
        fun h0 => absurd h0 (Nat.succ_ne_zero w), by dsimp only; omega, by dsimp only; omega⟩

theorem slopes_le (hDb : D < b) (k : ℕ) : ((slopes b D d k).2 : ℤ) ≤ k * d / D := by
  obtain ⟨w, hsum, hw, hlo, -⟩ := slopes_lag hd hdD hDb k
  refine (Int.le_ediv_iff_mul_le (by omega)).2 ?_
  rcases Nat.eq_zero_or_pos w with h0 | hpos
  · have := hw h0
    rw [h0] at hsum
    omega
  · have : 2 * b ≤ 2 * b * w := le_mul_of_one_le_right (by omega) (by exact_mod_cast hpos)
    omega

theorem slopes_eq_iff (hDb : D < b) (n : ℕ) :
    (∀ k < n, ((slopes b D d k).2 : ℤ) = k * d / D) ↔ ∀ k : ℕ, k + 1 < n → k * d % D + d < b := by
  constructor
  · intro heq k
    induction k using Nat.strong_induction_on with
    | _ k ih =>
      intro hk
      by_contra hge
      have hex := slopes_exact hd hdD k fun j hj => ih j hj (by omega)
      have hadd := ediv_emod_add hd hdD (k * d)
      have hr1 := emod_lt_of_pos (k * d) (by omega : 0 < D)
      have hq0 : 0 ≤ (k : ℤ) * d / D := ediv_nonneg (by positivity) (by omega)
      have hnext : ((k + 1 : ℕ) : ℤ) * d = k * d + d := by push_cast; ring
      have hlast := heq (k + 1) hk
      -- the accumulator wraps round below `D`, where a short step was due
      rw [slopes_succ, hex, slope] at hlast
      rw [wrapAt_of_ge (by omega) (by omega), if_neg (by omega), hnext] at hlast
      rw [if_pos (by omega)] at hadd
      omega
  · intro h k hk
    have hq0 : 0 ≤ (k : ℤ) * d / D := ediv_nonneg (by positivity) (by omega)
    rw [slopes_exact hd hdD k fun j hj => h j (by omega)]
    dsimp only
    omega

end

end

open List

/-! ## Sorting by exchanges -/

section
variable {α : Type*} [LinearOrder α]

/-- The first element is compared with all others, and exchanged for a smaller one. -/
def exchange : α → List α → α × List α
  | a, [] => (a, [])
  | a, b :: l =>
    if b < a then ((exchange b l).1, a :: (exchange b l).2)
      else ((exchange a l).1, b :: (exchange a l).2)

/-- `n` rounds, each from the next position on. -/
def exchangeRounds : ℕ → List α → List α
  | 0, l => l
  | _ + 1, [] => []
  | n + 1, a :: l => (exchange a l).1 :: exchangeRounds n (exchange a l).2

/-- The rounds of the sort. -/
def exchangeSort (l : List α) : List α := exchangeRounds (l.length - 1) l

theorem exchange_perm (a : α) (l : List α) :
    ((exchange a l).1 :: (exchange a l).2).Perm (a :: l) := by
  induction l generalizing a with
  | nil => exact .refl _
  | cons b l ih =>
    rw [exchange]
    split_ifs
    · exact (List.Perm.swap _ _ _).trans ((ih b).cons a)
    · exact (List.Perm.swap _ _ _).trans (((ih a).cons b).trans (.swap _ _ _))

theorem exchange_le (a : α) (l : List α) : ∀ b ∈ a :: l, (exchange a l).1 ≤ b := by
  induction l generalizing a with
  | nil => simp [exchange]
  | cons c l ih =>
    intro b hb
    rw [exchange]
    split_ifs with h
    · have hc := ih c
      rcases List.mem_cons.1 hb with rfl | hb
      · exact (hc c (by simp)).trans h.le
      · exact hc b hb
    · have ha := ih a
      rcases List.mem_cons.1 hb with rfl | hb
      · exact ha b (by simp)
      · rcases List.mem_cons.1 hb with rfl | hb
        · exact (ha a (by simp)).trans (not_lt.1 h)
        · exact ha b (by simp [hb])

theorem exchangeRounds_perm (n : ℕ) (l : List α) : (exchangeRounds n l).Perm l := by
  induction n generalizing l with
  | zero => exact .refl _
  | succ n ih =>
    cases l with
    | nil => exact .refl _
    | cons a l => exact ((ih _).cons _).trans (exchange_perm a l)

theorem exchangeRounds_sorted (n : ℕ) (l : List α) (h : l.length ≤ n + 1) :
    (exchangeRounds n l).Pairwise (· ≤ ·) := by
  induction n generalizing l with
  | zero =>
    rcases l with _ | ⟨a, _ | ⟨b, l⟩⟩
    · simp [exchangeRounds]
    · simp [exchangeRounds]
    · simp at h
  | succ n ih =>
    cases l with
    | nil => simp [exchangeRounds]
    | cons a l =>
      have hperm := exchange_perm a l
      have hlen := hperm.length_eq
      simp only [length_cons] at hlen h
      refine List.pairwise_cons.2 ⟨fun b hb => ?_, ih _ (by omega)⟩
      have hmem : b ∈ (exchange a l).2 := (exchangeRounds_perm n _).subset hb
      exact exchange_le a l b (hperm.subset (mem_cons_of_mem _ hmem))

theorem exchangeSort_perm (l : List α) : (exchangeSort l).Perm l := exchangeRounds_perm _ _

theorem exchangeSort_sorted (l : List α) : (exchangeSort l).Pairwise (· ≤ ·) :=
  exchangeRounds_sorted _ _ (by omega)

theorem exchangeSort_eq {l l' : List α} (h : l.Perm l') :
    exchangeSort l = l'.insertionSort (· ≤ ·) := by
  refine List.Perm.eq_of_pairwise' (exchangeSort_sorted l) (pairwise_insertionSort _ _) ?_
  exact (exchangeSort_perm l).trans (h.trans (perm_insertionSort _ _).symm)

end

/-- The least of some values, found by looking at one after the other. -/
theorem foldl_least {ι α : Type*} [LinearOrder α] (f : ι → α) (l : List ι) (v : α) :
    (l.foldl (fun v i => if f i < v then f i else v) v ≤ v ∧
      ∀ i ∈ l, l.foldl (fun v i => if f i < v then f i else v) v ≤ f i) ∧
    (l.foldl (fun v i => if f i < v then f i else v) v = v ∨
      ∃ i ∈ l, l.foldl (fun v i => if f i < v then f i else v) v = f i) := by
  induction l generalizing v with
  | nil => simp
  | cons j l ih =>
    rw [foldl_cons]
    obtain ⟨⟨hle, hall⟩, heq⟩ := ih (if f j < v then f j else v)
    have hmin : (if f j < v then f j else v) ≤ v ∧ (if f j < v then f j else v) ≤ f j := by
      split_ifs with h
      · exact ⟨h.le, le_rfl⟩
      · exact ⟨le_rfl, not_lt.1 h⟩
    refine ⟨⟨hle.trans hmin.1, fun i hi => ?_⟩, ?_⟩
    · rcases List.mem_cons.1 hi with rfl | hi
      · exact hle.trans hmin.2
      · exact hall i hi
    · rcases heq with heq | ⟨i, hi, heq⟩
      · rw [heq]
        split_ifs
        · exact .inr ⟨j, by simp, rfl⟩
        · exact .inl rfl
      · exact .inr ⟨i, mem_cons_of_mem _ hi, heq⟩

/-! ## Walks between two sides -/

/-- The changes of side along a walk. -/
def changes : Bool → List Bool → ℕ
  | _, [] => 0
  | a, b :: l => (if a = b then 0 else 1) + changes b l

/-- A walk that ends on its side changes it an even number of times. -/
theorem even_changes_iff (a : Bool) (l : List Bool) :
    Even (changes a l) ↔ (a :: l).getLast (by simp) = a := by
  induction l generalizing a with
  | nil => simp [changes]
  | cons b l ih =>
    rw [changes, getLast_cons (by simp), Nat.even_add, ih b]
    generalize (b :: l).getLast _ = c
    cases a <;> cases b <;> cases c <;> simp

theorem even_changes {a : Bool} {l : List Bool} (h : l.getLast? = some a) : Even (changes a l) := by
  rw [even_changes_iff]
  cases l with
  | nil => simp at h
  | cons b l =>
    rw [List.getLast?_eq_some_getLast (by simp), Option.some.injEq] at h
    exact h

/-! ## Pairs -/

section
variable {α : Type*}

/-- The elements two by two. -/
def pairUp : List α → List (α × α)
  | a :: b :: l => (a, b) :: pairUp l
  | [_] => []
  | [] => []

theorem mem_pairUp {l : List α} {d : α × α} :
    d ∈ pairUp l ↔ ∃ i : ℕ, l[2 * i]? = some d.1 ∧ l[2 * i + 1]? = some d.2 := by
  induction l using pairUp.induct with
  | case1 a b l ih =>
    rw [pairUp, mem_cons, ih]
    constructor
    · rintro (rfl | ⟨i, h1, h2⟩)
      · exact ⟨0, rfl, rfl⟩
      · refine ⟨i + 1, ?_, ?_⟩
        · simpa [Nat.mul_add] using h1
        · simpa [Nat.mul_add] using h2
    · rintro ⟨i, h1, h2⟩
      cases i with
      | zero => exact .inl (Prod.ext (Option.some.inj h1).symm (Option.some.inj h2).symm)
      | succ i =>
        refine .inr ⟨i, ?_, ?_⟩
        · simpa [Nat.mul_add] using h1
        · simpa [Nat.mul_add] using h2
  | case2 a => simp [pairUp]
  | case3 => simp [pairUp]

end

end Lib
