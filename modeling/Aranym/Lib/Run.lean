/-
  Runs of input-driven machines.

  A machine is a step function `S → I → S × O`.  `run` is the state after a
  list of inputs, and `Along G` says that every step of the run meets the
  guard `G` in the state in which it is taken.
-/
import Mathlib.Logic.Basic

namespace Lib

open List

variable {S T I O P : Type*}

/-- The state after the inputs. -/
def run (f : S → I → S × O) (s : S) : List I → S
  | [] => s
  | i :: is => run f (f s i).1 is

/-- Every step of the run meets `G`. -/
def Along (f : S → I → S × O) (G : S → I → Prop) (s : S) : List I → Prop
  | [] => True
  | i :: is => G s i ∧ Along f G (f s i).1 is

instance decidableAlong (f : S → I → S × O) (G : S → I → Prop) [∀ s i, Decidable (G s i)] :
    ∀ (s : S) (is : List I), Decidable (Along f G s is)
  | _, [] => .isTrue trivial
  | s, i :: is =>
    have := decidableAlong f G (f s i).1 is
    inferInstanceAs (Decidable (G s i ∧ Along f G (f s i).1 is))

variable {f : S → I → S × O} {G H : S → I → Prop}

theorem run_append (s : S) : ∀ is js : List I, run f s (is ++ js) = run f (run f s is) js
  | [], _ => rfl
  | i :: is, js => run_append (f s i).1 is js

theorem along_append (s : S) : ∀ is js : List I,
    Along f G s (is ++ js) ↔ Along f G s is ∧ Along f G (run f s is) js
  | [], _ => by simp [Along, run]
  | i :: is, js => by simp only [cons_append, Along, run, along_append _ is js, and_assoc]

theorem along_and (s : S) : ∀ is : List I, Along f G s is → Along f H s is →
    Along f (fun s i => G s i ∧ H s i) s is
  | [], _, _ => trivial
  | i :: is, hg, hh => ⟨⟨hg.1, hh.1⟩, along_and (f s i).1 is hg.2 hh.2⟩

theorem along_of_forall {G : I → Prop} : ∀ {is : List I}, (∀ i ∈ is, G i) → ∀ s : S,
    Along f (fun _ i => G i) s is
  | [], _, _ => trivial
  | i :: _, h, s =>
      ⟨h i mem_cons_self, along_of_forall (fun j hj => h j (mem_cons_of_mem _ hj)) (f s i).1⟩

/-- **Invariant rule.** -/
theorem run_inv {P : S → Prop} (hP : ∀ s i, P s → G s i → P (f s i).1) :
    ∀ (is : List I) (s : S), P s → Along f G s is → P (run f s is)
  | [], _, h, _ => h
  | i :: is, s, h, hg => run_inv hP is (f s i).1 (hP s i h hg.1) hg.2

theorem along_of_inv {P : S → Prop} (hP : ∀ s i, P s → G s i → P (f s i).1)
    (hH : ∀ s i, P s → G s i → H s i) :
    ∀ (is : List I) (s : S), P s → Along f G s is → Along f H s is
  | [], _, _, _ => trivial
  | i :: is, s, h, hg => ⟨hH s i h hg.1, along_of_inv hP hH is (f s i).1 (hP s i h hg.1) hg.2⟩

/-- If a step with an input of `Q` keeps `P` exactly under the guard, `P` holds in every state of a
    run with such inputs exactly if all its steps meet the guard. -/
theorem forall_take_iff_along_of_mem {P : S → Prop} {Q : I → Prop}
    (hP : ∀ s i, Q i → P s → (P (f s i).1 ↔ G s i)) :
    ∀ (is : List I) (s : S), (∀ i ∈ is, Q i) → P s →
    ((∀ n, P (run f s (is.take n))) ↔ Along f G s is)
  | [], s, _, h => by simp [run, Along, h]
  | i :: is, s, hq, h => by
    have hi := hP s i (hq i mem_cons_self) h
    have hrest :=
      fun h1 => forall_take_iff_along_of_mem hP is (f s i).1
        (fun j hj => hq j (mem_cons_of_mem _ hj)) h1
    constructor
    · intro hall
      have h1 : P (f s i).1 := hall 1
      exact ⟨hi.1 h1, (hrest h1).1 fun n => hall (n + 1)⟩
    · rintro ⟨hg, hgs⟩ n
      have h1 := hi.2 hg
      cases n with
      | zero => exact h
      | succ n => exact (hrest h1).2 hgs n

theorem forall_take_iff_along {P : S → Prop} (hP : ∀ s i, P s → (P (f s i).1 ↔ G s i))
    (is : List I) (s : S) (h : P s) : (∀ n, P (run f s (is.take n))) ↔ Along f G s is :=
  forall_take_iff_along_of_mem (Q := fun _ => True) (fun s i _ => hP s i) is s
    (fun _ _ => trivial) h

theorem run_inv_all {P : S → Prop} (hP : ∀ s i, P s → P (f s i).1) :
    ∀ (is : List I) (s : S), P s → P (run f s is)
  | [], _, h => h
  | i :: is, s, h => run_inv_all hP is (f s i).1 (hP s i h)

theorem run_last {V : Type*} {P : S → Prop} (val : S → V) {set : I → Option V}
    (hP : ∀ s i, P s → G s i → P (f s i).1 ∧ val (f s i).1 = (set i).getD (val s)) :
    ∀ (is : List I) (s : S), P s → Along f G s is →
      P (run f s is) ∧ val (run f s is) = (is.reverse.findSome? set).getD (val s)
  | [], _, h, _ => ⟨h, rfl⟩
  | i :: is, s, h, hg => by
    obtain ⟨h', hval⟩ := hP s i h hg.1
    obtain ⟨hrun, hlast⟩ := run_last val hP is (f s i).1 h' hg.2
    refine ⟨hrun, ?_⟩
    rw [run, hlast, hval, reverse_cons, List.findSome?_append]
    cases is.reverse.findSome? set <;> cases hi : set i <;> simp [hi]

/-- The outputs of a run. -/
def outputs (f : S → I → S × O) (s : S) : List I → List O
  | [] => []
  | i :: is => (f s i).2 :: outputs f (f s i).1 is

theorem along_output_iff {g : I → O} : ∀ (is : List I) (s : S),
    Along f (fun s i => (f s i).2 = g i) s is ↔ outputs f s is = is.map g
  | [], _ => by simp [Along, outputs]
  | i :: is, s => by
    rw [Along, outputs, map_cons, List.cons.injEq, along_output_iff is]

theorem along_congr {P : S → Prop} (hP : ∀ s i, P s → P (f s i).1)
    (hGH : ∀ s i, P s → (G s i ↔ H s i)) :
    ∀ (is : List I) (s : S), P s → (Along f G s is ↔ Along f H s is)
  | [], _, _ => Iff.rfl
  | i :: is, s, h => and_congr (hGH s i h) (along_congr hP hGH is (f s i).1 (hP s i h))

/-- A relation kept by steps that give the same output in both runs. -/
theorem outputs_sim {R : S → S → Prop}
    (hR : ∀ s t i, R s t → G s i → G t i → R (f s i).1 (f t i).1 ∧ (f s i).2 = (f t i).2) :
    ∀ (is : List I) (s t : S), R s t → Along f G s is → Along f G t is →
    outputs f s is = outputs f t is
  | [], _, _, _, _, _ => rfl
  | i :: is, s, t, h, hs, ht => by
    obtain ⟨h', ho⟩ := hR s t i h hs.1 ht.1
    rw [outputs, outputs, ho, outputs_sim hR is _ _ h' hs.2 ht.2]

/-- **Simulation rule.** -/
theorem run_sim {g : T → I → T × P} {R : S → T → Prop}
    (hR : ∀ s t i, R s t → G s i → R (f s i).1 (g t i).1) :
    ∀ (is : List I) (s : S) (t : T), R s t → Along f G s is → R (run f s is) (run g t is)
  | [], _, _, h, _ => h
  | i :: is, s, t, h, hg => run_sim hR is (f s i).1 (g t i).1 (hR s t i h hg.1) hg.2

theorem run_filter {p : I → Bool} (hp : ∀ s i, p i = false → (f s i).1 = s) :
    ∀ (is : List I) (s : S), run f s (is.filter p) = run f s is
  | [], _ => rfl
  | i :: is, s => by
    cases h : p i with
    | true => rw [filter_cons_of_pos h]; exact run_filter hp is (f s i).1
    | false =>
      rw [filter_cons_of_neg (by rw [h]; exact Bool.false_ne_true), run_filter hp is s,
        run, hp s i h]

/-! ## Cursors over lists -/

variable {α : Type*}

/-- The next item, no room for it, or no item left. -/
inductive Answer (α : Type*)
  | item (a : α)
  | noRoom
  | done
deriving DecidableEq

/-- The items left before and after an answer. -/
inductive Yields : List α → Answer α → List α → Prop
  | item (a : α) (l : List α) : Yields (a :: l) (.item a) l
  | noRoom (a : α) (l : List α) : Yields (a :: l) .noRoom (a :: l)
  | done : Yields [] .done []

theorem yields_item_iff {a b : α} {l l' : List α} :
    Yields (a :: l) (.item b) l' ↔ b = a ∧ l' = l := by
  constructor
  · rintro ⟨⟩
    exact ⟨rfl, rfl⟩
  · rintro ⟨rfl, rfl⟩
    exact .item _ _

theorem yields_noRoom_iff {a : α} {l l' : List α} : Yields (a :: l) .noRoom l' ↔ l' = a :: l := by
  constructor
  · rintro ⟨⟩
    rfl
  · rintro rfl
    exact .noRoom _ _

/-- The items among the answers. -/
def items : List (Option (Answer α)) → List α
  | [] => []
  | some (.item a) :: l => a :: items l
  | _ :: l => items l

/-- The call of the cursor `left` is answered as it should be. -/
def Serves (f : S → I → S × O) (left : S → List α) (answer : O → Option (Answer α)) (s : S)
    (i : I) : Prop :=
  ∃ a, answer (f s i).2 = some a ∧ Yields (left s) a (left (f s i).1)

variable {left : S → List α} {answer : O → Option (Answer α)}

theorem items_append_left : ∀ {is : List I} {s : S}, Along f (Serves f left answer) s is →
    items ((outputs f s is).map answer) ++ left (run f s is) = left s
  | [], _, _ => rfl
  | i :: is, s, ⟨⟨a, ha, hy⟩, his⟩ => by
    have ih := items_append_left his
    rw [outputs, List.map_cons, ha, run]
    generalize left (f s i).1 = after at hy ih
    generalize left s = before at hy
    cases hy with
    | item b l => exact congrArg (b :: ·) ih
    | noRoom => exact ih
    | done => exact ih

end Lib
