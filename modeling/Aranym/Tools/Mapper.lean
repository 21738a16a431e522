/-
  Numbers for host pointers (`NativeTypeMapper` of `include/tools.h`).

  The guest has 32 bits for a pointer, so every pointer that it may see gets a
  number: its low 32 bits or, if these are taken, the next free number in
  steps of 7.  Two maps search in both directions; a search for a key that is
  not there is undefined in the code and `none` here.
-/
import Aranym.Lib.Forest
import Aranym.Lib.Words

namespace Aranym.Tools

open Lib List

/-- `NativeTypeMapper<nativeType>`. -/
structure NativeTypeMapper (α : Type) where
  a2n : Heap U32 α
  n2a : Heap α U32
deriving DecidableEq

namespace NativeTypeMapper

variable {α : Type} [DecidableEq α]

/-- No values. -/
def empty : NativeTypeMapper α := ⟨[], []⟩

variable (low : α → U32) (m : NativeTypeMapper α)

/-- The value of a number. -/
def getNative (k : U32) : Option α := m.a2n.get k

/-- The number of a value. -/
def get32bit (value : α) : Option U32 := m.n2a.get value

/-- The loop over numbers ends after as many steps as there are keys. -/
def uniqueKey (aValue : U32) : U32 :=
  probe (fun k => (m.getNative k).isSome) 7 m.a2n.length aValue

/-- `low` gives the low 32 bits of a pointer. -/
def putNative (value : α) : NativeTypeMapper α :=
  if (m.get32bit value).isSome then m
  else
    let aValue := m.uniqueKey (low value)
    ⟨(aValue, value) :: m.a2n, (value, aValue) :: m.n2a⟩

/-- Forgets a value. -/
def removeNative (value : α) : NativeTypeMapper α :=
  match m.get32bit value with
  | none => m
  | some k => ⟨m.a2n.free k, m.n2a.free value⟩

/-- The two maps are inverse to each other. -/
def Bijective : Prop :=
  ∀ k value, m.getNative k = some value ↔ m.get32bit value = some k

variable {m : NativeTypeMapper α}

theorem bijective_empty : Bijective (empty : NativeTypeMapper α) := by
  intro k value
  simp [empty, getNative, get32bit, Heap.get_nil]

omit [DecidableEq α] in
theorem getNative_uniqueKey (hroom : m.a2n.length < 2 ^ 32) (a : U32) :
    m.getNative (m.uniqueKey a) = none := by
  have hkeys : ∀ k, (m.getNative k).isSome = true → k ∈ m.a2n.map Prod.fst := by
    intro k hk
    obtain ⟨value, hvalue⟩ := Option.isSome_iff_exists.1 hk
    exact mem_map_of_mem (Heap.mem_of_get hvalue)
  have hinv : (7 : U32) * 3067833783 = 1 := by decide
  have hfree := probe_free hinv hkeys (by rwa [length_map]) a
  rw [length_map] at hfree
  exact Option.isNone_iff_eq_none.1 (by rwa [← Option.not_isSome, Bool.not_eq_true'] )

theorem putNative_spec (hm : m.Bijective) (hroom : m.a2n.length < 2 ^ 32) (low : α → U32)
    (value : α) : (putNative low m value).Bijective ∧
      (∀ other, ((putNative low m value).get32bit other).isSome = true ↔
        other = value ∨ (m.get32bit other).isSome = true) ∧
      ∀ other k, m.get32bit other = some k → (putNative low m value).get32bit other = some k := by
  unfold putNative
  by_cases hold : (m.get32bit value).isSome = true
  · rw [if_pos hold]
    refine ⟨hm, fun other => ⟨.inr, ?_⟩, fun _ _ h => h⟩
    rintro (rfl | h)
    · exact hold
    · exact h
  · have hvalue : m.get32bit value = none := by simpa using hold
    have hkey := getNative_uniqueKey hroom (low value)
    rw [if_neg hold]
    generalize m.uniqueKey (low value) = k at hkey ⊢
    refine ⟨fun j v => ?_, fun other => ?_, fun other j hother => ?_⟩
    · have hjv := hm j v
      simp only [getNative, get32bit, Heap.get_cons] at hjv hvalue hkey ⊢
      by_cases hj : j = k
      · subst hj
        by_cases hv : v = value
        · simp [hv]
        · -- the new number belonged to nobody
          rw [if_pos rfl, if_neg hv, ← hjv, hkey]
          simp [Ne.symm hv]
      · by_cases hv : v = value
        · subst hv
          rw [if_neg hj, if_pos rfl, hjv, hvalue]
          simp [Ne.symm hj]
        · rw [if_neg hj, if_neg hv, hjv]
    · simp only [get32bit, Heap.get_cons]
      by_cases hv : other = value <;> simp [hv]
    · have hne : other ≠ value := by
        rintro rfl
        rw [hvalue] at hother
        cases hother
      exact (Heap.get_cons_of_ne _ _ hne).trans hother

/-- Removing a value frees its key and leaves every other mapping. -/
theorem removeNative_spec (hm : m.Bijective) (value : α) : (removeNative m value).Bijective ∧
      ∀ other, (removeNative m value).get32bit other =
        if other = value then none else m.get32bit other := by
  unfold removeNative
  cases hvalue : m.get32bit value with
  | none =>
    refine ⟨hm, fun other => ?_⟩
    split_ifs with hother
    · rw [hother, hvalue]
    · rfl
  | some k =>
    have hk := (hm k value).2 hvalue
    refine ⟨fun j v => ?_, fun other => Heap.get_free _ _ _⟩
    have hjv := hm j v
    simp only [getNative, get32bit, Heap.get_free] at hvalue hk hjv ⊢
    by_cases hj : j = k
    · rw [hj, hk] at hjv
      rw [if_pos hj]
      by_cases hv : v = value
      · simp [hv]
      · rw [if_neg hv, hj, ← hjv]
        simp [Ne.symm hv]
    · rw [if_neg hj, hjv]
      by_cases hv : v = value
      · rw [if_pos hv, hv, hvalue]
        simp [Ne.symm hj]
      · rw [if_neg hv]

theorem foldl_removeNative_spec (values : List α) : ∀ {m : NativeTypeMapper α}, m.Bijective →
      (values.foldl removeNative m).Bijective ∧
      ∀ other, (values.foldl removeNative m).get32bit other =
          if other ∈ values then none else m.get32bit other := by
  induction values with
  | nil => exact fun hm => ⟨hm, fun _ => (if_neg not_mem_nil).symm⟩
  | cons value values ih =>
    intro m hm
    obtain ⟨hone, hget⟩ := removeNative_spec hm value
    obtain ⟨hall, hgets⟩ := ih hone
    refine ⟨hall, fun other => ?_⟩
    rw [foldl_cons, hgets, hget]
    by_cases hv : other = value
    all_goals simp [hv]

/-! ## Histories -/

/-- An operation. -/
inductive Op (α : Type)
  | put (value : α)
  | remove (value : α)

/-- Makes it. -/
def apply (low : α → U32) (m : NativeTypeMapper α) : Op α → NativeTypeMapper α
  | .put value => putNative low m value
  | .remove value => removeNative m value

/-- The values after it. -/
def liveAfter (l : List α) : Op α → List α
  | .put value => if value ∈ l then l else value :: l
  | .remove value => l.erase value

/-- The values that were put and not removed since. -/
def live (ops : List (Op α)) : List α := ops.foldl liveAfter []

/-- The live values are those with a number. -/
structure Tracks (m : NativeTypeMapper α) (l : List α) : Prop where
  bijective : m.Bijective
  live : ∀ value, (m.get32bit value).isSome = true ↔ value ∈ l
  nodup : l.Nodup
  room : m.a2n.length ≤ l.length

theorem Tracks.apply {l : List α} (h : Tracks m l) (hroom : l.length < 2 ^ 32)
    (low : α → U32) (op : Op α) : Tracks (m.apply low op) (liveAfter l op) := by
  obtain ⟨hbij, hlive, hnodup, hlen⟩ := h
  cases op with
  | put value =>
    obtain ⟨hbij', hsome, -⟩ := putNative_spec hbij (hlen.trans_lt hroom) low value
    simp only [NativeTypeMapper.apply, liveAfter, ← hlive value]
    by_cases hold : (m.get32bit value).isSome = true
    · rw [if_pos hold, putNative, if_pos hold]
      exact ⟨hbij, hlive, hnodup, hlen⟩
    · rw [if_neg hold]
      refine ⟨hbij', fun v => ?_, nodup_cons.2 ⟨mt (hlive value).2 hold, hnodup⟩, ?_⟩
      · rw [hsome, hlive, List.mem_cons]
      · rw [putNative, if_neg hold]
        exact Nat.succ_le_succ hlen
  | remove value =>
    obtain ⟨hbij', hget⟩ := removeNative_spec hbij value
    refine ⟨hbij', fun v => ?_, hnodup.erase value, ?_⟩
    · rw [liveAfter, hnodup.mem_erase_iff, ← hlive, NativeTypeMapper.apply, hget]
      split_ifs with hv <;> simp [hv]
    · simp only [NativeTypeMapper.apply, liveAfter, removeNative]
      cases hvalue : m.get32bit value with
      | none => rwa [erase_of_not_mem fun hv => by simpa [hvalue] using (hlive value).2 hv]
      | some k =>
        have hv := (hlive value).1 (by simp [hvalue])
        have hless : (m.a2n.free k).length < m.a2n.length := length_filter_lt_length_iff_exists.2
          ⟨_, Heap.mem_of_get ((hbij k value).2 hvalue), by simp⟩
        rw [length_erase_of_mem hv]
        dsimp only
        omega

theorem tracks_live (low : α → U32) {ops : List (Op α)}
    (hroom : ∀ n ≤ ops.length, (live (ops.take n)).length < 2 ^ 32) :
    Tracks (ops.foldl (apply low) empty) (live ops) := by
  induction ops using reverseRecOn with
  | nil => exact ⟨bijective_empty, by simp [empty, get32bit, live, Heap.get_nil], .nil, le_rfl⟩
  | append_singleton ops op ih =>
    have htake : ∀ n ≤ ops.length, (live (ops.take n)).length < 2 ^ 32 := by
      intro n hn
      have hlive := hroom n (hn.trans (by simp))
      rwa [take_append_of_le_length hn] at hlive
    have hlast := htake _ le_rfl
    rw [take_length] at hlast
    rw [live, foldl_concat, foldl_concat]
    exact (ih htake).apply hlast low op

/-- The search for a free number ends, live values have numbers of their own which lead back to
them, and a removed value leaves its number. -/
theorem mapper_history (low : α → U32) (ops : List (Op α))
    (hroom : ∀ n ≤ ops.length, (live (ops.take n)).length < 2 ^ 32) :
    let m := ops.foldl (apply low) empty
    (∀ value, m.getNative (m.uniqueKey (low value)) = none) ∧
      m.Bijective ∧
      (∀ value ∈ live ops, ∃ k, m.get32bit value = some k ∧ m.getNative k = some value) ∧
      (∀ v ∈ live ops, ∀ w ∈ live ops, m.get32bit v = m.get32bit w → v = w) ∧
      ∀ value k, m.get32bit value = some k →
        (m.removeNative value).getNative k = none ∧
          (m.removeNative value).get32bit value = none := by
  intro m
  obtain ⟨hbij, hlive, -, hlen⟩ := tracks_live low hroom
  have hfew := hroom _ le_rfl
  rw [List.take_length] at hfew
  have hback : ∀ value ∈ live ops, ∃ k, m.get32bit value = some k ∧ m.getNative k = some value := by
    intro value hvalue
    obtain ⟨k, hk⟩ := Option.isSome_iff_exists.1 ((hlive value).2 hvalue)
    exact ⟨k, hk, (hbij k value).2 hk⟩
  refine ⟨fun value => getNative_uniqueKey (hlen.trans_lt hfew) _, hbij, hback, ?_, ?_⟩
  · intro v hv w hw hsame
    obtain ⟨k, hk, hnative⟩ := hback v hv
    have hother := (hbij k w).2 (hsame ▸ hk)
    exact Option.some.inj (hnative.symm.trans hother)
  · intro value k hk
    obtain ⟨hbij', hget⟩ := removeNative_spec hbij value
    refine ⟨?_, by rw [hget, if_pos rfl]⟩
    rw [removeNative, hk]
    exact (Heap.get_free _ _ _).trans (if_pos rfl)

theorem mapper_history_collision :
    let m := [Op.put 1#33, .put 0x100000001#33].foldl (apply (·.setWidth 32)) empty
    m.getNative 8 = some 0x100000001#33 ∧ m.Bijective :=
  ⟨by decide, (mapper_history (·.setWidth 32) [.put 1#33, .put 0x100000001#33] (by decide)).2.1⟩

end NativeTypeMapper

end Aranym.Tools
