/-
  Paths as lists of components, and directories that a path stays below.

  A component stands for its directory (`here`), for the parent (`up`) or for a
  name.  `resolve` reads a path without looking at any file system; `Inside`
  compares two paths that way.  `walk` only counts levels: it fails where a
  path climbs above the directory it starts in.
-/
import Mathlib.Data.List.Infix

namespace Lib

open List

variable {α : Type*}

/-- A component of a path. -/
inductive Segment (α : Type*)
  | here
  | up
  | name (a : α)
deriving DecidableEq, Repr

/-- A path. -/
structure FilePath (α : Type*) where
  absolute : Bool
  parts : List (Segment α)
deriving DecidableEq, Repr

/-- The next component, on the directories entered so far, the innermost first.  Above `/` there is
    `/`; a relative path keeps what it climbs above its start. -/
def enter (absolute : Bool) : List (Segment α) → Segment α → List (Segment α)
  | st, .here => st
  | .name _ :: st, .up => st
  | [], .up => if absolute then [] else [.up]
  | st, .up => .up :: st
  | st, .name a => .name a :: st

/-- The path without `here` and without an `up` that could be resolved. -/
def FilePath.resolve (p : FilePath α) : List (Segment α) :=
  (p.parts.foldl (enter p.absolute) []).reverse

/-- `p` is `root` or a path below it. -/
def FilePath.Inside (root p : FilePath α) : Prop :=
  p.absolute = root.absolute ∧ root.resolve <+: p.resolve

instance [DecidableEq α] (root p : FilePath α) : Decidable (root.Inside p) :=
  inferInstanceAs (Decidable (_ ∧ _))

/-- The level below the start after the components, `none` if they climb above it. -/
def walk : ℕ → List (Segment α) → Option ℕ
  | n, [] => some n
  | n, .here :: ps => walk n ps
  | 0, .up :: _ => none
  | n + 1, .up :: ps => walk n ps
  | n, .name _ :: ps => walk (n + 1) ps

theorem walk_append (ps qs : List (Segment α)) (n : ℕ) :
    walk n (ps ++ qs) = (walk n ps).bind (walk · qs) := by
  induction ps generalizing n with
  | nil => rfl
  | cons p ps ih =>
    cases p with
    | here => exact ih n
    | up =>
      cases n with
      | zero => rfl
      | succ n => exact ih n
    | name a => exact ih (n + 1)

variable {ps : List (Segment α)}

theorem walk_mono {n m : ℕ} (k : ℕ) (h : walk n ps = some m) : walk (n + k) ps = some (m + k) := by
  induction ps generalizing n with
  | nil =>
    cases h
    rfl
  | cons p ps ih =>
    cases p with
    | here => exact ih h
    | up =>
      cases n with
      | zero => cases h
      | succ n =>
        rw [Nat.succ_add]
        exact ih h
    | name a =>
      have := ih (n := n + 1) h
      rwa [Nat.add_right_comm] at this

theorem walk_of_append {qs : List (Segment α)} {n : ℕ} (h : (walk n (ps ++ qs)).isSome) :
    (walk n ps).isSome := by
  rw [walk_append] at h
  cases hp : walk n ps with
  | none => rw [hp] at h; cases h
  | some m => rfl

/-- The component with another name. -/
def Segment.map {β : Type*} (f : α → β) : Segment α → Segment β
  | .here => .here
  | .up => .up
  | .name a => .name (f a)

theorem walk_map {β : Type*} (f : α → β) (ps : List (Segment α)) (n : ℕ) :
    walk n (ps.map (Segment.map f)) = walk n ps := by
  induction ps generalizing n with
  | nil => rfl
  | cons p ps ih =>
    cases p with
    | here => exact ih n
    | up =>
      cases n with
      | zero => rfl
      | succ n => exact ih n
    | name a => exact ih (n + 1)

theorem splitOnP_map {β : Type*} (f : α → β) (p : β → Bool) (l : List α) :
    (l.map f).splitOnP p = (l.splitOnP (p ∘ f)).map (List.map f) := by
  induction l with
  | nil => simp
  | cons a l ih =>
    rw [map_cons, splitOnP_cons_eq_if_modifyHead, splitOnP_cons_eq_if_modifyHead, ih]
    simp only [Function.comp_apply]
    split_ifs
    · rfl
    · cases l.splitOnP (p ∘ f) <;> rfl

/-- Components that do not climb above their start only change what was entered since. -/
theorem foldl_enter_of_walk (absolute : Bool) (st : List (Segment α)) :
    ∀ {l : List α} {m : ℕ}, walk l.length ps = some m → ∃ l' : List α, l'.length = m ∧
        ps.foldl (enter absolute) (l.map .name ++ st) = l'.map .name ++ st := by
  induction ps with
  | nil =>
    intro l m h
    exact ⟨l, Option.some.inj h, rfl⟩
  | cons p ps ih =>
    intro l m h
    cases p with
    | here =>
      have hst : enter absolute (l.map .name ++ st) .here = l.map .name ++ st := by
        cases l <;> rfl
      exact ih h
    | up =>
      cases l with
      | nil => cases h
      | cons a l => exact ih h
    | name a =>
      have hst : enter absolute (l.map .name ++ st) (.name a) = (a :: l).map .name ++ st := by
        cases l <;> cases st <;> rfl
      exact ih (l := a :: l) h

theorem inside_append (absolute : Bool) (root : List (Segment α)) (h : (walk 0 ps).isSome) :
    FilePath.Inside ⟨absolute, root⟩ ⟨absolute, root ++ ps⟩ := by
  obtain ⟨m, hm⟩ := Option.isSome_iff_exists.1 h
  obtain ⟨l, -, hl⟩ := foldl_enter_of_walk absolute (root.foldl (enter absolute) []) (l := []) hm
  refine ⟨rfl, ?_⟩
  show (root.foldl (enter absolute) []).reverse <+: ((root ++ ps).foldl (enter absolute) []).reverse
  rw [foldl_append]
  rw [map_nil, nil_append] at hl
  rw [hl, reverse_append]
  exact prefix_append _ _

theorem resolve_append_here (absolute : Bool) (ps : List (Segment α)) :
    FilePath.resolve ⟨absolute, ps ++ [.here]⟩ = FilePath.resolve ⟨absolute, ps⟩ := by
  show ((ps ++ [Segment.here]).foldl (enter absolute) []).reverse = _
  cases h : ps.foldl (enter absolute) [] with
  | nil => simp [enter, FilePath.resolve, h]
  | cons p st => cases p <;> simp [enter, FilePath.resolve, h]

/-! ## Tables that replace the beginning of a text -/

variable {ε α : Type*}

/-- `left` is not empty and begins `text`. -/
def Begins (fold : α → α) (left text : List α) : Prop :=
  left ≠ [] ∧ left.map fold <+: text.map fold

instance [DecidableEq α] (fold : α → α) (left text : List α) : Decidable (Begins fold left text) :=
  inferInstanceAs (Decidable (_ ∧ _))

/-- The first rule whose left side begins `text`. -/
def applies [DecidableEq α] (fold : α → α) (left : ε → List α) (rules : List ε) (text : List α) :
    Option ε :=
  rules.find? fun r => Begins fold (left r) text

/-- Some rule turns `text` into `out`. -/
def Rewrites (fold : α → α) (left right : ε → List α) (rules : List ε) (text out : List α) : Prop :=
  ∃ r ∈ rules, Begins fold (left r) text ∧ out = right r ++ text.drop (left r).length

/-- No text is turned into two. -/
def Functional (fold : α → α) (left right : ε → List α) (rules : List ε) : Prop :=
  ∀ ⦃text out out'⦄, Rewrites fold left right rules text out →
    Rewrites fold left right rules text out' → out = out'

section
variable {fold : α → α} {left right : ε → List α} {rules : List ε} {text out : List α} {r : ε}

variable {l : List α}

theorem Begins.length_le (h : Begins fold l text) : l.length ≤ text.length := by
  have hlen := h.2.length_le
  rwa [length_map, length_map] at hlen

theorem Begins.append (h : Begins fold l text) (rest : List α) : Begins fold l (text ++ rest) := by
  refine ⟨h.1, ?_⟩
  rw [map_append]
  exact h.2.trans (prefix_append _ _)

theorem begins_self (hl : l ≠ []) (rest : List α) : Begins fold l (l ++ rest) := by
  refine ⟨hl, ?_⟩
  rw [map_append]
  exact prefix_append _ _

theorem begins_id_iff (hl : l ≠ []) : Begins id l text ↔ l <+: text := by
  unfold Begins
  rw [map_id, map_id, and_iff_right hl]

theorem rewrites_append (h : Rewrites fold left right rules text out) (rest : List α) :
    Rewrites fold left right rules (text ++ rest) (out ++ rest) := by
  obtain ⟨r, hr, hbegins, rfl⟩ := h
  refine ⟨r, hr, hbegins.append rest, ?_⟩
  rw [drop_append_of_le_length hbegins.length_le, append_assoc]

theorem rewrites_back (hr : r ∈ rules) (hleft : left r ≠ []) (rest : List α) :
    Rewrites fold left right rules (left r ++ rest) (right r ++ rest) :=
  ⟨r, hr, begins_self hleft rest, by rw [drop_left]⟩

variable [DecidableEq α]

theorem mem_of_applies (h : applies fold left rules text = some r) : r ∈ rules :=
  List.mem_of_find?_eq_some h

theorem begins_of_applies (h : applies fold left rules text = some r) :
    Begins fold (left r) text := by
  have hr := List.find?_some h
  exact of_decide_eq_true hr

theorem rewrites_of_applies (h : applies fold left rules text = some r) :
    Rewrites fold left right rules text (right r ++ text.drop (left r).length) :=
  ⟨r, mem_of_applies h, begins_of_applies h, rfl⟩

theorem not_rewrites_of_applies (h : applies fold left rules text = none) :
    ¬ Rewrites fold left right rules text out := by
  rintro ⟨r, hr, hbegins, -⟩
  exact List.find?_eq_none.1 h r hr (decide_eq_true hbegins)

theorem Functional.eq_of_applies (hf : Functional fold left right rules)
    (h : applies fold left rules text = some r) (hout : Rewrites fold left right rules text out) :
    out = right r ++ text.drop (left r).length :=
  hf hout (rewrites_of_applies h)

theorem Rewrites.exists_applies (hout : Rewrites fold left right rules text out) :
    ∃ r, applies fold left rules text = some r := by
  cases h : applies fold left rules text with
  | none => exact absurd hout (not_rewrites_of_applies h)
  | some r => exact ⟨r, rfl⟩

end

end Lib
