/-
  Ranges of bytes in files and in memories.

  A file is the list of its bytes; `overwrite` puts data over it from a
  position on, and fills a gap behind its end.  A memory is a function of its
  addresses, which wrap round; `store` and `load` work on consecutive ones.
-/
import Mathlib.Data.BitVec

namespace Lib

open List

variable {α : Type*}

/-! ## Files -/

/-- `data` over the bytes from `pos` on. -/
def overwrite (z : α) (l : List α) (pos : ℕ) (data : List α) : List α :=
  if data = [] then l
  else (l ++ List.replicate (pos - l.length) z).take pos ++ data ++ l.drop (pos + data.length)

variable (z : α)

@[simp] theorem overwrite_nil (l : List α) (pos : ℕ) : overwrite z l pos [] = l := if_pos rfl

variable {data : List α}

theorem getElem?_overwrite (l : List α) (pos : ℕ) (hd : data ≠ []) (i : ℕ) :
    (overwrite z l pos data)[i]? = if i < pos then some (l[i]?.getD z)
      else if i < pos + data.length then data[i - pos]? else l[i]? := by
  have hlen : ((l ++ List.replicate (pos - l.length) z).take pos).length = pos := by
    rw [length_take, length_append, length_replicate]
    omega
  rw [overwrite, if_neg hd, append_assoc, List.getElem?_append, hlen]
  split_ifs with h1 h2
  · rw [List.getElem?_take, if_pos h1, List.getElem?_append]
    split_ifs with h3
    · rw [List.getElem?_eq_getElem h3]
      rfl
    · rw [List.getElem?_replicate, if_pos (by omega), List.getElem?_eq_none (by omega)]
      rfl
  · rw [List.getElem?_append_left (by omega)]
  · rw [List.getElem?_append_right (by omega), List.getElem?_drop]
    congr 1
    omega

theorem length_overwrite (l : List α) (pos : ℕ) (hd : data ≠ []) :
    (overwrite z l pos data).length = max l.length (pos + data.length) := by
  rw [overwrite, if_neg hd, length_append, length_append, length_take,
    length_append, length_replicate, length_drop]
  omega

variable {pos : ℕ} {l : List α}

/-! Within the file nothing but the range changes. -/

theorem length_overwrite_of_le (h : pos + data.length ≤ l.length) :
    (overwrite z l pos data).length = l.length := by
  by_cases hd : data = []
  · rw [hd, overwrite_nil]
  · rw [length_overwrite z l pos hd]
    omega

theorem getElem?_overwrite_outside {i : ℕ} (h : pos + data.length ≤ l.length)
    (hi : i < pos ∨ pos + data.length ≤ i) : (overwrite z l pos data)[i]? = l[i]? := by
  by_cases hd : data = []
  · rw [hd, overwrite_nil]
  rw [getElem?_overwrite z _ _ hd]
  rcases hi with hi | hi
  · rw [if_pos hi, List.getElem?_eq_getElem (by omega)]
    rfl
  · rw [if_neg (by omega), if_neg (by omega)]

theorem overwrite_append (l : List α) (pos : ℕ) (d₁ d₂ : List α) :
    overwrite z (overwrite z l pos d₁) (pos + d₁.length) d₂ = overwrite z l pos (d₁ ++ d₂) := by
  by_cases h1 : d₁ = []
  · simp [h1]
  by_cases h2 : d₂ = []
  · simp [h2]
  refine ext_getElem? fun i => ?_
  rw [getElem?_overwrite z _ _ h2, getElem?_overwrite z _ _ h1,
    getElem?_overwrite z _ _ (by simp [h1]), length_append, List.getElem?_append]
  by_cases hi : i < pos
  · rw [if_pos (by omega), if_pos hi, if_pos hi]
    rfl
  rw [if_neg hi, if_neg hi]
  by_cases hi1 : i < pos + d₁.length
  · rw [if_pos hi1, if_pos hi1, if_pos (by omega), if_pos (by omega),
      List.getElem?_eq_getElem (by omega)]
    rfl
  rw [if_neg hi1, if_neg hi1, if_neg (show ¬ i - pos < d₁.length by omega), Nat.add_assoc,
    Nat.sub_add_eq]

/-- `n` bytes from `pos` on. -/
def slice (l : List α) (pos n : ℕ) : List α := (l.drop pos).take n

theorem getElem?_slice (l : List α) (pos n i : ℕ) :
    (slice l pos n)[i]? = if i < n then l[pos + i]? else none := by
  rw [slice, List.getElem?_take, List.getElem?_drop]

theorem length_slice (l : List α) (pos n : ℕ) :
    (slice l pos n).length = min n (l.length - pos) := by
  rw [slice, length_take, length_drop]

theorem slice_middle (l₁ l₂ l₃ : List α) : slice (l₁ ++ (l₂ ++ l₃)) l₁.length l₂.length = l₂ := by
  rw [slice, drop_left, take_left]

variable {n off k : ℕ}

theorem slice_slice (l : List α) (h : off + k ≤ n) :
    slice (slice l pos n) off k = slice l (pos + off) k := by
  refine ext_getElem? fun i => ?_
  rw [getElem?_slice, getElem?_slice, getElem?_slice]
  split_ifs
  · rw [Nat.add_assoc]
  · omega
  · rfl

theorem slice_overwrite_inside {start : ℕ} (hl : start ≤ pos) (hr : pos + n ≤ start + data.length) :
    slice (overwrite z l start data) pos n = slice data (pos - start) n := by
  refine ext_getElem? fun i => ?_
  rw [getElem?_slice, getElem?_slice]
  split_ifs with hi
  · have hd : data ≠ [] := by
      rintro rfl
      rw [length_nil] at hr
      omega
    rw [getElem?_overwrite z _ _ hd, if_neg (by omega), if_pos (by omega)]
    congr 1
    omega
  · rfl

theorem slice_overwrite_outside {start : ℕ}
    (hfile : start + data.length ≤ l.length) (h : pos + n ≤ start ∨ start + data.length ≤ pos) :
    slice (overwrite z l start data) pos n = slice l pos n := by
  refine ext_getElem? fun i => ?_
  rw [getElem?_slice, getElem?_slice]
  split_ifs with hi
  · exact getElem?_overwrite_outside z hfile (by omega)
  · rfl

/-! ## Memories -/

variable {w : ℕ}

/-- The memory with `data` at `a` and the addresses behind it. -/
def store (m : BitVec w → α) (a : BitVec w) (data : List α) : BitVec w → α := fun x =>
  data[(x - a).toNat]?.getD (m x)

/-- The `n` bytes from `a` on. -/
def load (m : BitVec w → α) (a : BitVec w) (n : ℕ) : List α :=
  (List.range n).map fun i => m (a + BitVec.ofNat w i)

variable (m : BitVec w → α)

variable (a : BitVec w)

@[simp] theorem length_load (n : ℕ) : (load m a n).length = n := by
  simp [load]

@[simp] theorem store_nil : store m a [] = m := by
  funext x
  rfl

theorem load_append (n k : ℕ) :
    load m a (n + k) = load m a n ++ load m (a + BitVec.ofNat w n) k := by
  rw [load, range_add, map_append, map_map]
  congr 1
  refine map_congr_left fun i _ => ?_
  rw [Function.comp_apply, BitVec.ofNat_add, BitVec.add_assoc]

theorem take_load (n k : ℕ) : (load m a n).take k = load m a (min k n) := by
  rw [load, ← map_take, take_range, load]

theorem toNat_sub_add_ofNat (x a : BitVec w) (n : ℕ) :
    (x - (a + BitVec.ofNat w n)).toNat = ((x - a).toNat + 2 ^ w - n % 2 ^ w) % 2 ^ w := by
  rw [← BitVec.sub_sub, BitVec.toNat_sub, BitVec.toNat_ofNat]
  congr 1
  omega

theorem store_append {d₁ d₂ : List α} (h : d₁.length + d₂.length ≤ 2 ^ w) :
    store (store m a d₁) (a + BitVec.ofNat w d₁.length) d₂ = store m a (d₁ ++ d₂) := by
  funext x
  have hx := (x - a).isLt
  unfold store
  rw [toNat_sub_add_ofNat, List.getElem?_append]
  generalize (x - a).toNat = i at hx ⊢
  by_cases hd : d₁.length = 2 ^ w
  · -- the first piece fills the memory
    have h2 : d₂ = [] := List.length_eq_zero_iff.1 (by omega)
    rw [if_pos (by omega), h2]
    rfl
  by_cases hi : i < d₁.length
  · rw [if_pos hi, Nat.mod_eq_of_lt (by omega : d₁.length < 2 ^ w), Nat.mod_eq_of_lt (by omega),
      List.getElem?_eq_none (l := d₂) (by omega)]
    rfl
  · have hmod : (i + 2 ^ w - d₁.length % 2 ^ w) % 2 ^ w = i - d₁.length := by
      rw [Nat.mod_eq_of_lt (by omega : d₁.length < 2 ^ w),
        show i + 2 ^ w - d₁.length = i - d₁.length + 2 ^ w by omega, Nat.add_mod_right,
        Nat.mod_eq_of_lt (by omega)]
    rw [if_neg hi, hmod, List.getElem?_eq_none (l := d₁) (by omega)]
    rfl

theorem slice_load (h : off + k ≤ n) :
    slice (load m a n) off k = load m (a + BitVec.ofNat w off) k := by
  obtain ⟨r, rfl⟩ := Nat.exists_eq_add_of_le h
  rw [Nat.add_assoc, load_append, slice, drop_left' (length_load m a off), load_append,
    take_left' (length_load m _ k)]

theorem load_store (h : data.length ≤ 2 ^ w) : load (store m a data) a data.length = data := by
  refine ext_getElem? fun i => ?_
  rw [load, List.getElem?_map]
  by_cases hi : i < data.length
  · have hsub : (a + BitVec.ofNat w i - a).toNat = i := by
      rw [BitVec.add_comm, BitVec.add_sub_cancel, BitVec.toNat_ofNat, Nat.mod_eq_of_lt (by omega)]
    rw [List.getElem?_range hi, Option.map_some, store, hsub, List.getElem?_eq_getElem hi]
    rfl
  · rw [List.getElem?_eq_none (by simpa using hi), List.getElem?_eq_none (by omega)]
    rfl

theorem load_store_slice (hdata : data.length ≤ 2 ^ w) (h : off + k ≤ data.length) :
    load (store m a data) (a + BitVec.ofNat w off) k = slice data off k := by
  rw [← slice_load _ a h, load_store m a hdata]

/-! ## Transfers in several calls

`move i t` is what the `i`-th call moves after `t` of `count` items, or how it fails. -/

section
variable {ε : Type*} (move : ℕ → ℕ → Except ε ℕ) (count : ℕ)

/-- The transfer gets to the `i`-th call with `t` items moved. -/
inductive Stage : ℕ → ℕ → Prop
  | start : Stage 0 0
  | next {i t k : ℕ} (h : Stage i t) (ht : t < count) (hm : move i t = .ok (k + 1)) :
      Stage (i + 1) (t + (k + 1))

/-- The transfer ends with so many items, and a failure or none. -/
inductive Ends : ℕ → Option ε → Prop
  | all {i t : ℕ} (h : Stage move count i t) (ht : count ≤ t) : Ends t none
  | dry {i t : ℕ} (h : Stage move count i t) (ht : t < count) (hm : move i t = .ok 0) : Ends t none
  | failure {i t : ℕ} {e : ε} (h : Stage move count i t) (ht : t < count)
      (hm : move i t = .error e) : Ends t (some e)

variable {move count} {i j t u T : ℕ} {f : Option ε}

theorem Stage.unique (h : Stage move count i t) : ∀ {u}, Stage move count i u → t = u := by
  induction h with
  | start =>
    intro u hu
    cases hu
    rfl
  | next h ht hm ih =>
    intro u hu
    cases hu with
    | next h' ht' hm' =>
      cases ih h'
      rw [hm] at hm'
      cases hm'
      rfl

theorem Stage.mono (h : Stage move count j u) : ∀ {i t}, i ≤ j → Stage move count i t → t ≤ u := by
  induction h with
  | start =>
    intro i t hi hs
    cases Nat.le_zero.1 hi
    exact Nat.le_of_eq (hs.unique .start)
  | @next j u k h ht hm ih =>
    intro i t hi hs
    rcases Nat.lt_or_eq_of_le hi with hi | rfl
    · exact Nat.le_trans (ih (Nat.lt_succ_iff.1 hi) hs) (Nat.le_add_right u _)
    · exact Nat.le_of_eq (hs.unique (.next h ht hm))

/-- No further call is made, or the next one moves nothing. -/
def Last (move : ℕ → ℕ → Except ε ℕ) (count j T : ℕ) : Prop :=
  Stage move count j T ∧ (T < count → ∀ k, move j T ≠ .ok (k + 1))

theorem Last.le (hl : Last move count j T) (hs : Stage move count i t) : i ≤ j := by
  induction hs with
  | start => exact Nat.zero_le j
  | @next i t k h ht hm ih =>
    rcases Nat.lt_or_eq_of_le ih with hlt | rfl
    · exact hlt
    · cases h.unique hl.1
      exact absurd hm (hl.2 ht k)

theorem Ends.last (h : Ends move count T f) :
    ∃ j, Last move count j T ∧ ∀ e, T < count → move j T = .error e → f = some e := by
  cases h with
  | all h ht =>
    exact ⟨_, ⟨h, fun hlt => absurd ht (Nat.not_le.2 hlt)⟩,
      fun _ hlt _ => absurd ht (Nat.not_le.2 hlt)⟩
  | dry h ht hm =>
    refine ⟨_, ⟨h, fun _ k hk => ?_⟩, fun e _ he => ?_⟩
    · rw [hm] at hk
      cases hk
    · rw [hm] at he
      cases he
  | failure h ht hm =>
    refine ⟨_, ⟨h, fun _ k hk => ?_⟩, fun e' _ he => ?_⟩
    · rw [hm] at hk
      cases hk
    · rw [hm] at he
      cases he
      rfl

theorem Ends.le_of_stage (h : Ends move count T f) (hs : Stage move count i t) : t ≤ T := by
  obtain ⟨j, hj, -⟩ := h.last
  exact hj.1.mono (hj.le hs) hs

theorem Ends.of_error {e : ε} (h : Ends move count T f) (hs : Stage move count i t) (ht : t < count)
    (hm : move i t = .error e) : t = T ∧ f = some e := by
  obtain ⟨j, hj, hf⟩ := h.last
  have hlast : Last move count i t := ⟨hs, fun _ k hk => by rw [hm] at hk; cases hk⟩
  obtain rfl : i = j := Nat.le_antisymm (hj.le hs) (hlast.le hj.1)
  obtain rfl : t = T := hs.unique hj.1
  exact ⟨rfl, hf e ht hm⟩

/-- A loop that makes the calls, with what it leaves to move and the state it is in, runs to an end
    of the transfer.  `P` is what holds of the number of items moved. -/
theorem Stage.runs {σ : Type*} (P : ℕ → Prop) (state : ℕ → σ) (loop : ℕ → ℕ → ℕ → Option ε × ℕ × σ)
    (stop : ∀ fuel i t, fuel = 0 ∨ count ≤ t → loop fuel i t = (none, count - t, state t))
    (turn : ∀ fuel i t, P t → t < count → match move i t with
      | .error e => loop (fuel + 1) i t = (some e, count - t, state t)
      | .ok 0 => loop (fuel + 1) i t = (none, count - t, state t)
      | .ok (k + 1) => P (t + (k + 1)) ∧ loop (fuel + 1) i t = loop fuel (i + 1) (t + (k + 1)))
    (fuel : ℕ) (h : Stage move count i t) (hP : P t) (hfuel : count - t ≤ fuel) :
    ∃ T f, Ends move count T f ∧ P T ∧ loop fuel i t = (f, count - T, state T) := by
  induction fuel generalizing i t with
  | zero => exact ⟨t, none, .all h (by omega), hP, stop 0 i t (.inl rfl)⟩
  | succ fuel ih =>
    rcases Nat.lt_or_ge t count with ht | ht
    · have hturn := turn fuel i t hP ht
      split at hturn
      next e hm => exact ⟨t, some e, .failure h ht hm, hP, hturn⟩
      next hm => exact ⟨t, none, .dry h ht hm, hP, hturn⟩
      next k hm =>
        rw [hturn.2]
        exact ih (.next h ht hm) hturn.1 (by omega)
    · exact ⟨t, none, .all h ht, hP, stop _ i t (.inr ht)⟩

end

end Lib
