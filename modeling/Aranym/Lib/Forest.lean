/-
  Heaps whose nodes point to their parents.

  A heap lists its live nodes with their addresses, the newest first.  It is
  `Rooted` if the addresses are distinct and the parent of every node is an
  older live node; the nodes then form a forest.
-/
import Mathlib.Data.List.Basic

namespace Lib

open List hiding cons get get_of_mem nil

variable {K α : Type*} [DecidableEq K]

/-- Nodes by their keys. -/
abbrev Heap (K α : Type*) := List (K × α)

namespace Heap

/-- The node at an address, if it is live. -/
def get (h : Heap K α) (k : K) : Option α := h.lookup k

/-- Changes a node. -/
def alter (h : Heap K α) (k : K) (f : α → α) : Heap K α :=
  h.map fun c => if c.1 = k then (c.1, f c.2) else c

/-- Takes a node out. -/
def free (h : Heap K α) (k : K) : Heap K α := h.filter fun c => c.1 ≠ k

theorem get_nil (k : K) : get ([] : Heap K α) k = none := rfl

theorem get_cons (c : K × α) (h : Heap K α) (k : K) :
    get (c :: h) k = if k = c.1 then some c.2 else get h k := by
  obtain ⟨j, a⟩ := c
  by_cases hk : k = j
  · simp [get, hk]
  · simp [get, lookup_cons, hk, beq_false_of_ne hk]

@[simp] theorem get_cons_self (k : K) (a : α) (h : Heap K α) : get ((k, a) :: h) k = some a := by
  rw [get_cons, if_pos rfl]

variable {k j : K}

theorem get_cons_of_ne (a : α) (h : Heap K α) (hj : j ≠ k) : get ((k, a) :: h) j = get h j := by
  rw [get_cons, if_neg hj]

theorem mem_of_get {h : Heap K α} {a : α} (hk : get h k = some a) : (k, a) ∈ h := by
  induction h with
  | nil => cases hk
  | cons c h ih =>
    rw [get_cons] at hk
    split_ifs at hk with hc
    · cases hk
      rw [hc]
      exact mem_cons_self
    · exact mem_cons_of_mem _ (ih hk)

variable (h : Heap K α)
include h

theorem get_alter (k : K) (f : α → α) (j : K) :
    get (alter h k f) j = if j = k then (get h j).map f else get h j := by
  induction h with
  | nil => split_ifs <;> rfl
  | cons c h ih =>
    rw [alter, map_cons, ← alter, get_cons, get_cons, ih]
    split_ifs <;> simp_all

theorem get_free (k j : K) : get (free h k) j = if j = k then none else get h j := by
  induction h with
  | nil => split_ifs <;> rfl
  | cons c h ih =>
    rw [free, filter_cons, ← free]
    by_cases hc : c.1 = k
    · rw [if_neg (by simpa using hc), ih, get_cons]
      split_ifs <;> simp_all
    · rw [if_pos (by simpa using hc), get_cons, get_cons, ih]
      split_ifs <;> simp_all

theorem get_free_of_ne (hj : j ≠ k) : get (free h k) j = get h j := by
  rw [get_free, if_neg hj]

theorem free_comm (k j : K) : free (free h k) j = free (free h j) k := by
  rw [free, free, filter_filter, free, free, filter_filter]
  exact filter_congr fun c _ => Bool.and_comm _ _

theorem free_alter (f : α → α) : free (alter h j f) k = alter (free h k) j f := by
  induction h with
  | nil => rfl
  | cons c h ih =>
    simp only [alter, free, map_cons] at ih ⊢
    by_cases hj : c.1 = j
    · rw [if_pos hj, filter_cons, filter_cons]
      split_ifs
      · rw [map_cons, if_pos hj, ih]
      · exact ih
    · rw [if_neg hj, filter_cons, filter_cons]
      split_ifs
      · rw [map_cons, if_neg hj, ih]
      · exact ih

theorem length_alter (k : K) (f : α → α) : (alter h k f).length = h.length :=
  length_map _

end Heap

open Heap

variable (parent : α → Option K)

/-- The number of live nodes below `p`. -/
def children (h : Heap K α) (p : K) : ℕ := h.countP fun c => parent c.2 = some p

/-- Distinct addresses, and every parent is live and older. -/
def Rooted : Heap K α → Prop
  | [] => True
  | c :: h => get h c.1 = none ∧ (∀ p, parent c.2 = some p → ∃ b, get h p = some b) ∧ Rooted h

variable {parent}

theorem children_cons (c : K × α) (h : Heap K α) (p : K) :
    children parent (c :: h) p = children parent h p + if parent c.2 = some p then 1 else 0 := by
  simp [children, countP_cons]

theorem children_alter (h : Heap K α) (k : K) {f : α → α} (hf : ∀ a, parent (f a) = parent a)
    (p : K) : children parent (alter h k f) p = children parent h p := by
  rw [children, alter, countP_map]
  refine countP_congr fun c _ => ?_
  simp only [Function.comp_apply]
  split_ifs <;> simp [hf]

variable {h : Heap K α}

theorem rooted_alter (k : K) {f : α → α} (hf : ∀ a, parent (f a) = parent a)
    (hr : Rooted parent h) : Rooted parent (alter h k f) := by
  have hlive : ∀ (h : Heap K α) j, (∃ b, get h j = some b) → ∃ b, get (alter h k f) j = some b := by
    rintro h j ⟨b, hb⟩
    rw [get_alter, hb]
    split_ifs
    exacts [⟨f b, rfl⟩, ⟨b, rfl⟩]
  induction h with
  | nil => trivial
  | cons c h ih =>
    obtain ⟨hc, hp, hr⟩ := hr
    have hget : get (alter h k f) c.1 = none := by
      rw [get_alter, hc]
      split_ifs <;> rfl
    rw [alter, map_cons, ← alter]
    split_ifs
    · exact ⟨hget, fun p hcp => hlive h p (hp p (by rwa [hf] at hcp)), ih hr⟩
    · exact ⟨hget, fun p hcp => hlive h p (hp p hcp), ih hr⟩

variable {c : K × α}

theorem get_of_mem (hr : Rooted parent h) (hc : c ∈ h) : get h c.1 = some c.2 := by
  induction h with
  | nil => cases hc
  | cons d h ih =>
    rcases List.mem_cons.1 hc with rfl | hc
    · exact get_cons_self _ _ _
    · have hne : c.1 ≠ d.1 := by
        intro heq
        have := ih hr.2.2 hc
        rw [heq, hr.1] at this
        cases this
      rw [get_cons, if_neg hne]
      exact ih hr.2.2 hc

variable {k p : K} {a : α}

theorem Rooted.parent_live (hr : Rooted parent h)
    (hk : get h k = some a) (hp : parent a = some p) : ∃ b, get h p = some b := by
  induction h with
  | nil => cases hk
  | cons c h ih =>
    have hlive : ∃ b, get h p = some b := by
      rw [get_cons] at hk
      split_ifs at hk
      · cases hk
        exact hr.2.1 p hp
      · exact ih hr.2.2 hk
    obtain ⟨b, hb⟩ := hlive
    rw [get_cons]
    split_ifs
    exacts [⟨c.2, rfl⟩, ⟨b, hb⟩]

theorem children_eq_zero : children parent h p = 0 ↔ ∀ c ∈ h, parent c.2 ≠ some p := by
  simp [children, countP_eq_zero]

theorem Rooted.children_of_dead (hr : Rooted parent h) (hk : get h k = none) :
    children parent h k = 0 := by
  rw [children_eq_zero]
  intro c hc hp
  obtain ⟨b, hb⟩ := hr.parent_live (get_of_mem hr hc) hp
  rw [hk] at hb
  cases hb

theorem Rooted.free (hr : Rooted parent h) (hk : children parent h k = 0) :
    Rooted parent (free h k) := by
  induction h with
  | nil => trivial
  | cons c h ih =>
    rw [children_cons, Nat.add_eq_zero_iff] at hk
    have hrest := ih hr.2.2 hk.1
    have hne : parent c.2 ≠ some k := by
      intro hp
      rw [if_pos hp] at hk
      exact absurd hk.2 Nat.one_ne_zero
    rw [Heap.free, filter_cons, ← Heap.free]
    split_ifs
    · refine ⟨?_, ?_, hrest⟩
      · rw [get_free, hr.1]
        split_ifs <;> rfl
      · intro p hp
        rw [get_free_of_ne h (by rintro rfl; exact hne hp)]
        exact hr.2.1 p hp
    · exact hrest

theorem free_of_dead (hk : get h k = none) : Heap.free h k = h := by
  rw [Heap.free, filter_eq_self]
  intro c hc
  simp only [decide_eq_true_eq]
  rintro rfl
  induction h with
  | nil => cases hc
  | cons d h ih =>
    rw [get_cons] at hk
    split_ifs at hk with hd
    rcases List.mem_cons.1 hc with rfl | hc
    · exact hd rfl
    · exact ih hc hk

theorem free_cons_self (hc : get h c.1 = none) : Heap.free (c :: h) c.1 = h := by
  rw [Heap.free, filter_cons, if_neg (by simp), ← Heap.free, free_of_dead hc]

theorem free_cons_of_ne (hc : k ≠ c.1) : Heap.free (c :: h) k = c :: Heap.free h k := by
  rw [Heap.free, filter_cons, if_pos (by simpa using hc.symm), ← Heap.free]

theorem Rooted.length_free (hr : Rooted parent h)
    (hk : get h k = some a) : (Heap.free h k).length + 1 = h.length := by
  induction h with
  | nil => cases hk
  | cons c h ih =>
    rw [get_cons] at hk
    split_ifs at hk with hc
    · rw [hc, free_cons_self hr.1, length_cons]
    · rw [free_cons_of_ne hc, length_cons, length_cons, ih hr.2.2 hk]

theorem Rooted.children_free (hr : Rooted parent h) (hk : get h k = some a) (p : K) :
    children parent (Heap.free h k) p + (if parent a = some p then 1 else 0) =
      children parent h p := by
  induction h with
  | nil => cases hk
  | cons c h ih =>
    rw [get_cons] at hk
    split_ifs at hk with hc
    · cases hk
      rw [hc, free_cons_self hr.1, children_cons]
    · rw [free_cons_of_ne hc, children_cons, children_cons, Nat.add_right_comm, ih hr.2.2 hk]

theorem Rooted.exists_leaf (hr : Rooted parent h) (hne : h ≠ []) :
    ∃ c ∈ h, children parent h c.1 = 0 := by
  cases h with
  | nil => exact absurd rfl hne
  | cons c h =>
    refine ⟨c, mem_cons_self, ?_⟩
    have hself : parent c.2 ≠ some c.1 := by
      intro hp
      obtain ⟨b, hb⟩ := hr.2.1 c.1 hp
      rw [hr.1] at hb
      cases hb
    rw [children_cons, if_neg hself, Rooted.children_of_dead hr.2.2 hr.1]

/-! ## Lineages -/

variable (parent)

/-- The nodes from `k` up to its root. -/
inductive Lineage (h : Heap K α) : K → Heap K α → Prop
  | root {k : K} {a : α} (hk : get h k = some a) (hp : parent a = none) : Lineage h k [(k, a)]
  | child {k p : K} {a : α} {l : Heap K α} (hk : get h k = some a) (hp : parent a = some p)
      (hl : Lineage h p l) : Lineage h k ((k, a) :: l)

variable {parent}

variable {l : Heap K α}

theorem Lineage.live (hl : Lineage parent h k l) : ∃ a, get h k = some a := by
  cases hl with
  | root hk _ => exact ⟨_, hk⟩
  | child hk _ _ => exact ⟨_, hk⟩

theorem Lineage.unique (hl : Lineage parent h k l) : ∀ {l'}, Lineage parent h k l' → l = l' := by
  induction hl with
  | root hk hp =>
    intro l' hl'
    cases hl' with
    | root hk' _ => rw [hk] at hk'; cases hk'; rfl
    | child hk' hp' _ => rw [hk] at hk'; cases hk'; rw [hp] at hp'; cases hp'
  | child hk hp _ ih =>
    intro l' hl'
    cases hl' with
    | root hk' hp' => rw [hk] at hk'; cases hk'; rw [hp] at hp'; cases hp'
    | child hk' hp' hl' =>
      rw [hk] at hk'; cases hk'
      rw [hp] at hp'; cases hp'
      rw [ih hl']

/-- A heap that has the nodes of `h`, as far as `φ` shows them, has its lineages. -/
theorem Lineage.mono {γ : Type*} (φ : α → γ) {h' : Heap K α}
    (hh : ∀ k a, get h k = some a → ∃ b, get h' k = some b ∧ parent b = parent a ∧ φ b = φ a)
    (hl : Lineage parent h k l) : ∃ l', Lineage parent h' k l' ∧
      l'.map (fun c => (c.1, φ c.2)) = l.map fun c => (c.1, φ c.2) := by
  induction hl with
  | root hk hp =>
    obtain ⟨b, hb, hpb, hφ⟩ := hh _ _ hk
    exact ⟨_, .root hb (hpb.trans hp), by simp [hφ]⟩
  | child hk hp _ ih =>
    obtain ⟨b, hb, hpb, hφ⟩ := hh _ _ hk
    obtain ⟨l', hl', heq⟩ := ih
    exact ⟨_, .child hb (hpb.trans hp) hl', by simp only [map_cons, hφ, heq]⟩

theorem Rooted.exists_lineage (hr : Rooted parent h)
    (hk : get h k = some a) : ∃ l, Lineage parent h k l ∧ l.length ≤ h.length := by
  induction h generalizing k a with
  | nil => cases hk
  | cons c h ih =>
    -- the lineages of the older nodes do not meet the newest one
    have hold : ∀ j b, get h j = some b → get (c :: h) j = some b := by
      intro j b hj
      rw [get_cons, if_neg]
      · exact hj
      · rintro rfl
        rw [hr.1] at hj
        cases hj
    have hmono : ∀ {j l}, Lineage parent h j l → Lineage parent (c :: h) j l := by
      intro j l hl
      induction hl with
      | root hk hp => exact .root (hold _ _ hk) hp
      | child hk hp _ ih => exact .child (hold _ _ hk) hp ih
    by_cases hc : k = c.1
    · have hka : a = c.2 := by
        rw [get_cons, if_pos hc] at hk
        exact (Option.some.inj hk).symm
      cases hp : parent a with
      | none => exact ⟨_, .root hk hp, by simp⟩
      | some p =>
        obtain ⟨b, hb⟩ := hr.2.1 p (hka ▸ hp)
        obtain ⟨l, hl, hlen⟩ := ih hr.2.2 hb
        exact ⟨_, .child hk hp (hmono hl), Nat.succ_le_succ hlen⟩
    · rw [get_cons, if_neg hc] at hk
      obtain ⟨l, hl, hlen⟩ := ih hr.2.2 hk
      exact ⟨l, hmono hl, Nat.le_succ_of_le hlen⟩

theorem Lineage.exists_of_mem (hl : Lineage parent h k l)
    (hc : c ∈ l) : ∃ l', Lineage parent h c.1 l' ∧ l'.length ≤ l.length := by
  induction hl with
  | root hk hp =>
    cases List.mem_singleton.1 hc
    exact ⟨_, .root hk hp, Nat.le_refl _⟩
  | child hk hp hl ih =>
    rcases List.mem_cons.1 hc with rfl | hc
    · exact ⟨_, .child hk hp hl, Nat.le_refl _⟩
    · obtain ⟨l', hl', hlen⟩ := ih hc
      exact ⟨l', hl', Nat.le_succ_of_le hlen⟩

theorem Lineage.not_above (hk : get h k = some a)
    (hp : parent a = some p) (hl : Lineage parent h p l) : ∀ c ∈ l, c.1 ≠ k := by
  rintro c hc rfl
  obtain ⟨l', hl', hlen⟩ := hl.exists_of_mem hc
  have := congrArg List.length (hl'.unique (.child hk hp hl))
  rw [length_cons] at this
  omega

end Lib
