/-
  Ring buffers, and streams of packets that tell their lengths.
-/
import Mathlib.Data.Nat.ModEq

namespace Lib

/-! ## Rings of `N` cells -/

section
open Nat

variable {α : Type*} {N : ℕ} {buf : ℕ → α}

/-- `n` cells from index `r` on. -/
def cells (N : ℕ) (buf : ℕ → α) (r : ℕ) : ℕ → List α
  | 0 => []
  | n + 1 => buf (r % N) :: cells N buf (r + 1) n

/-- The number of cells from the read index `r` to the write index `w`. -/
def used (N r w : ℕ) : ℕ := (w + N - r) % N

@[simp] theorem length_cells (r : ℕ) : ∀ n, (cells N buf r n).length = n := by
  intro n
  induction n generalizing r with
  | zero => rfl
  | succ n ih => simp [cells, ih]

theorem cells_append (r : ℕ) :
    ∀ n k, cells N buf r (n + k) = cells N buf r n ++ cells N buf (r + n) k := by
  intro n k
  induction n generalizing r with
  | zero => simp [cells]
  | succ n ih =>
    rw [show n + 1 + k = (n + k) + 1 by omega]
    simp only [cells, ih, List.cons_append]
    rw [show r + 1 + n = r + (n + 1) by omega]

theorem cells_mod (r : ℕ) : ∀ n, cells N buf (r % N) n = cells N buf r n := by
  intro n
  induction n generalizing r with
  | zero => rfl
  | succ n ih => simp only [cells, mod_mod, ← ih (r % N + 1), ← ih (r + 1), mod_add_mod]

theorem cells_update {j : ℕ} {v : α} (r : ℕ) : ∀ n, (∀ i < n, (r + i) % N ≠ j) →
    cells N (Function.update buf j v) r n = cells N buf r n := by
  intro n
  induction n generalizing r with
  | zero => intro _; rfl
  | succ n ih =>
    intro h
    have h0 := h 0 (by omega)
    rw [Nat.add_zero] at h0
    simp only [cells, Function.update_of_ne h0]
    rw [ih (r + 1) fun i hi => by rw [show r + 1 + i = r + (i + 1) by omega]; exact h _ (by omega)]

theorem add_mod_ne {r i n : ℕ} (hi : i < n) (hn : n < N) : (r + i) % N ≠ (r + n) % N := fun h =>
  hi.ne (Nat.ModEq.eq_of_lt_of_lt (Nat.ModEq.add_left_cancel' r h) (hi.trans hn) hn)

theorem cells_push {r n : ℕ} (hn : n < N) (v : α) :
    cells N (Function.update buf ((r + n) % N) v) r (n + 1) = cells N buf r n ++ [v] := by
  rw [cells_append, cells_update r n fun i hi => add_mod_ne hi hn]
  simp [cells]

theorem cells_drop {r n k : ℕ} (hk : k ≤ n) :
    cells N buf ((r + k) % N) (n - k) = (cells N buf r n).drop k := by
  obtain ⟨m, rfl⟩ := Nat.exists_eq_add_of_le hk
  rw [cells_append, List.drop_left' (length_cells r k), cells_mod, Nat.add_sub_cancel_left]

theorem used_lt {r w : ℕ} (hN : 0 < N) : used N r w < N := mod_lt _ hN

theorem used_eq {r n : ℕ} (hr : r < N) (hn : n < N) : used N r ((r + n) % N) = n := by
  unfold used
  by_cases h : r + n < N
  · rw [mod_eq_of_lt h, show r + n + N - r = n + N by omega, add_mod_right, mod_eq_of_lt hn]
  · have hw : (r + n) % N = r + n - N := by
      rw [mod_eq_sub_mod (by omega), mod_eq_of_lt (by omega)]
    rw [hw, show r + n - N + N - r = n by omega, mod_eq_of_lt hn]

/-- The write index is as many cells after the read index as are used. -/
theorem add_used {r w : ℕ} (hr : r < N) (hw : w < N) : (r + used N r w) % N = w := by
  unfold used
  rw [add_mod_mod, show r + (w + N - r) = w + N by omega, add_mod_right, mod_eq_of_lt hw]

end

/-! ## Packets -/

open List

variable {α : Type*} {len : α → ℕ}

/-- A header with as many elements as it asks for. -/
def IsPacket (len : α → ℕ) (p : List α) : Prop := ∃ b rest, p = b :: rest ∧ p.length = len b

/-- How many elements are missing after `n` were missing and a list was read. -/
def need (len : α → ℕ) : ℕ → List α → ℕ
  | n, [] => n
  | n, b :: bs => need len (if n = 0 then len b - 1 else n - 1) bs

theorem need_append (n : ℕ) (xs ys : List α) :
    need len n (xs ++ ys) = need len (need len n xs) ys := by
  induction xs generalizing n with
  | nil => rfl
  | cons b bs ih => exact ih _

theorem need_of_le {n : ℕ} {xs : List α} (h : xs.length ≤ n) : need len n xs = n - xs.length := by
  induction xs generalizing n with
  | nil => rfl
  | cons b bs ih =>
    rw [length_cons] at h
    rw [need, if_neg (by omega), ih (by omega), length_cons]; omega

theorem need_packet {p : List α} (h : IsPacket len p) : need len 0 p = 0 := by
  obtain ⟨b, rest, rfl, hl⟩ := h
  rw [length_cons] at hl
  rw [need, if_pos rfl, need_of_le (by omega)]; omega

/-- A reader that has read a part of a packet, but not nothing, misses the rest. -/
theorem need_of_part {p d r : List α} (h : IsPacket len p) (hp : p = d ++ r) (hd : d ≠ []) :
    need len 0 d = r.length := by
  obtain ⟨b, rest, hb, hl⟩ := h
  obtain ⟨b', d', rfl⟩ := exists_cons_of_ne_nil hd
  obtain rfl : b' = b := by rw [hb] at hp; exact (List.cons.inj hp).1.symm
  rw [hp, length_append, length_cons] at hl
  rw [need, if_pos rfl, need_of_le (by omega)]; omega

theorem split_at_boundary : ∀ {ps : List (List α)} {d r : List α}, (∀ p ∈ ps, IsPacket len p) →
    d ++ r = ps.flatten → need len 0 d = 0 → ∃ a c, ps = a ++ c ∧ d = a.flatten ∧ r = c.flatten
  | [], d, r, _, h, _ => by
    obtain ⟨rfl, rfl⟩ := List.append_eq_nil_iff.1 h
    exact ⟨[], [], rfl, rfl, rfl⟩
  | p :: ps, d, r, hp, h, hn => by
    rw [flatten_cons] at h
    rcases List.append_eq_append_iff.1 h with ⟨p', rfl, hr⟩ | ⟨d', rfl, hps⟩
    · by_cases hd : d = []
      · subst hd; exact ⟨[], p' :: ps, rfl, rfl, by simpa using hr⟩
      · -- the reader stands inside `p` unless it has read all of it
        have hlen := need_of_part (hp _ mem_cons_self) rfl hd
        obtain rfl : p' = [] := List.length_eq_zero_iff.1 (hlen.symm.trans hn)
        exact ⟨[d ++ []], ps, rfl, by simp, by simpa using hr⟩
    · rw [need_append, need_packet (hp p mem_cons_self)] at hn
      obtain ⟨a, c, rfl, rfl, rfl⟩ :=
        split_at_boundary (fun q hq => hp q (mem_cons_of_mem _ hq)) hps.symm hn
      exact ⟨p :: a, c, rfl, rfl, rfl⟩

end Lib
