/-
  Stateful computations that can fail.

  A failure keeps the state, as a C++ exception thrown in the middle of a
  function does.  `Moves x R` is partial correctness (`R` relates the states
  before and after `x` where it returns), `Total x` says that `x` returns from
  every state.
-/
import Mathlib.Logic.Basic

namespace Lib

variable {ε σ α β : Type}

/-- Where `x` returns, `R` holds of the states before and after. -/
def Moves (x : EStateM ε σ α) (R : σ → σ → Prop) : Prop := ∀ s a s', x s = .ok a s' → R s s'

/-- `x` returns. -/
def Total (x : EStateM ε σ α) : Prop := ∀ s, ∃ a s', x s = .ok a s'

/-- `try x catch`: `true` if `x` returned. -/
def attempt (x : EStateM ε σ α) : EStateM ε σ Bool := fun s =>
  match x s with
  | .ok _ s => .ok true s
  | .error _ s => .ok false s

variable {x : EStateM ε σ α} {s s' : σ} {f : α → EStateM ε σ β}

theorem bind_ok {b : β} : (x >>= f) s = .ok b s' ↔ ∃ a t, x s = .ok a t ∧ f a t = .ok b s' := by
  show EStateM.bind x f s = _ ↔ _
  unfold EStateM.bind
  cases hx : x s with
  | ok a t =>
    constructor
    · intro h; exact ⟨a, t, rfl, h⟩
    · rintro ⟨_, _, ⟨⟩, h⟩; exact h
  | error e t => simp

variable {R : σ → σ → Prop}

theorem Moves.bind {Q S : σ → σ → Prop} (hx : Moves x R) (hf : ∀ a, Moves (f a) Q)
    (hS : ∀ s t u, R s t → Q t u → S s u) : Moves (x >>= f) S := by
  intro s b s' h
  obtain ⟨a, t, h1, h2⟩ := bind_ok.1 h
  exact hS s t s' (hx s a t h1) (hf a t b s' h2)

theorem Total.bind (hx : Total x) (hf : ∀ a, Total (f a)) : Total (x >>= f) := by
  intro s
  obtain ⟨a, t, h⟩ := hx s
  obtain ⟨b, u, h'⟩ := hf a t
  exact ⟨b, u, bind_ok.2 ⟨a, t, h, h'⟩⟩

theorem Total.modify (g : σ → σ) : Total (modify g : EStateM ε σ PUnit) :=
  fun s => ⟨⟨⟩, g s, rfl⟩

theorem attempt_true (h : attempt x s = .ok true s') : ∃ a, x s = .ok a s' := by
  unfold attempt at h
  cases hx : x s with
  | ok a t => rw [hx] at h; cases h; exact ⟨a, rfl⟩
  | error e t => rw [hx] at h; cases h

theorem attempt_total (hx : Total x) (s : σ) : ∃ s', attempt x s = .ok true s' := by
  obtain ⟨a, t, h⟩ := hx s
  exact ⟨t, by simp only [attempt, h]⟩

theorem bind_of_ok (f : α → EStateM ε σ β) {a : α} (h : x s = .ok a s') : (x >>= f) s = f a s' := by
  show EStateM.bind x f s = _
  rw [EStateM.bind, h]

theorem bind_of_error (f : α → EStateM ε σ β) {e : ε}
    (h : x s = .error e s') : (x >>= f) s = .error e s' := by
  show EStateM.bind x f s = _
  rw [EStateM.bind, h]

/-! ## States after a computation -/

/-- The state after `x`, whether it returns or throws. -/
def after (x : EStateM ε σ α) (s : σ) : σ :=
  match x s with
  | .ok _ s => s
  | .error _ s => s

/-- Also when it throws. -/
def Keeps (x : EStateM ε σ α) (R : σ → σ → Prop) : Prop := ∀ s, R s (after x s)

theorem Keeps.pure (hR : ∀ s, R s s) (a : α) : Keeps (pure a : EStateM ε σ α) R := fun s => hR s

theorem Keeps.bind (hx : Keeps x R)
    (hf : ∀ a, Keeps (f a) R) (hR : ∀ s t u, R s t → R t u → R s u) : Keeps (x >>= f) R := by
  intro s
  have hs := hx s
  unfold after at hs ⊢
  cases h : x s with
  | ok a t =>
    rw [h] at hs
    rw [bind_of_ok f h]
    exact hR s t _ hs (hf a t)
  | error e t =>
    rw [h] at hs
    rw [bind_of_error f h]
    exact hs

/-! ## Two computations side by side -/

/-- From states related by `P`, `x` and `y` throw together, or return with `Q`. -/
def Together (P : σ → σ → Prop) (x : EStateM ε σ α) (y : EStateM ε σ β)
    (Q : α → β → σ → σ → Prop) : Prop :=
  ∀ s t, P s t →
    (∃ e s' e' t', x s = .error e s' ∧ y t = .error e' t') ∨
      ∃ a s' b t', x s = .ok a s' ∧ y t = .ok b t' ∧ Q a b s' t'

variable {P : σ → σ → Prop} {Q : α → β → σ → σ → Prop} {y : EStateM ε σ β}

theorem Together.bind {γ δ : Type} {f : α → EStateM ε σ γ} {g : β → EStateM ε σ δ}
    {S : γ → δ → σ → σ → Prop} (hx : Together P x y Q)
    (hf : ∀ a b, Together (Q a b) (f a) (g b) S) : Together P (x >>= f) (y >>= g) S := by
  intro s t h
  rcases hx s t h with ⟨e, s', e', t', h1, h2⟩ | ⟨a, s', b, t', h1, h2, hq⟩
  · exact .inl ⟨e, s', e', t', bind_of_error f h1, bind_of_error g h2⟩
  · rw [bind_of_ok f h1, bind_of_ok g h2]
    exact hf a b s' t' hq

theorem Together.pure {a : α} {b : β} (h : ∀ s t, P s t → Q a b s t) :
    Together P (pure a : EStateM ε σ α) (pure b : EStateM ε σ β) Q :=
  fun s t hp => .inr ⟨a, s, b, t, rfl, rfl, h s t hp⟩

/-- A fact that follows from the relation of the states can be used for the values. -/
theorem Together.of_states (h : ∀ s t, P s t → Together P x y Q) : Together P x y Q :=
  fun s t hp => h s t hp s t hp

theorem Together.ite {p q : Prop} [Decidable p] [Decidable q] {x' : EStateM ε σ α}
    {y' : EStateM ε σ β} (hpq : p ↔ q) (ht : q → Together P x y Q) (hf : ¬ q → Together P x' y' Q) :
    Together P (if p then x else x') (if q then y else y') Q := by
  by_cases hq : q
  · rw [if_pos hq, if_pos (hpq.2 hq)]; exact ht hq
  · rw [if_neg hq, if_neg (mt hpq.1 hq)]; exact hf hq

/-- From `s`, `x` and `y` return the same, or both throw with `E`. -/
def Agrees (E : ε → σ → ε → σ → Prop) (x y : EStateM ε σ α) (s : σ) : Prop :=
  (∃ a t, x s = .ok a t ∧ y s = .ok a t) ∨
    ∃ e t e' t', x s = .error e t ∧ y s = .error e' t' ∧ E e t e' t'

section
variable {E E' : ε → σ → ε → σ → Prop} {x y : EStateM ε σ α} {s : σ}

theorem Agrees.bind {f g : α → EStateM ε σ β} (h : Agrees E x y s)
    (hf : ∀ a t, Agrees E (f a) (g a) t) : Agrees E (x >>= f) (y >>= g) s := by
  rcases h with ⟨a, t, hx, hy⟩ | ⟨e, t, e', t', hx, hy, he⟩
  · rw [Agrees, bind_of_ok f hx, bind_of_ok g hy]
    exact hf a t
  · exact .inr ⟨e, t, e', t', bind_of_error f hx, bind_of_error g hy, he⟩

theorem Agrees.pure (E : ε → σ → ε → σ → Prop) (a : α) (s : σ) : Agrees E (pure a) (pure a) s :=
  .inl ⟨a, s, rfl, rfl⟩

theorem Agrees.mono (h : Agrees E x y s) (hE : ∀ e t e' t', E e t e' t' → E' e t e' t') :
    Agrees E' x y s := by
  rcases h with h | ⟨e, t, e', t', hx, hy, he⟩
  · exact .inl h
  · exact .inr ⟨e, t, e', t', hx, hy, hE e t e' t' he⟩

end

/-- `catch`, `f`, and `throw` again. -/
def onThrow (f : ε → σ → σ) (x : EStateM ε σ α) : EStateM ε σ α := fun s =>
  match x s with
  | .ok a s => .ok a s
  | .error e s => .error e (f e s)

theorem Agrees.onThrow {E E' : ε → σ → ε → σ → Prop} {y : EStateM ε σ α} {f : ε → σ → σ}
    (h : Agrees E x y s) (hE : ∀ e t e' t', E e t e' t' → E' e (f e t) e' t') :
    Agrees E' (onThrow f x) y s := by
  rcases h with ⟨a, t, hx, hy⟩ | ⟨e, t, e', t', hx, hy, he⟩
  · exact .inl ⟨a, t, by rw [Lib.onThrow, hx], hy⟩
  · exact .inr ⟨e, f e t, e', t', by rw [Lib.onThrow, hx], hy, hE e t e' t' he⟩

/-! ## Pre- and postconditions -/

/-- From `P`, `x` returns with `Q` or throws with `E`. -/
def Triple (P : σ → Prop) (x : EStateM ε σ α) (Q : α → σ → Prop) (E : σ → Prop) : Prop :=
  ∀ s, P s →
    match x s with
    | .ok a t => Q a t
    | .error _ t => E t

section
variable {P : σ → Prop} {Q : α → σ → Prop} {E : σ → Prop}

variable {x : EStateM ε σ α}

theorem Triple.bind {f : α → EStateM ε σ β} {R : β → σ → Prop}
    (hx : Triple P x Q E) (hf : ∀ a, Triple (Q a) (f a) R E) : Triple P (x >>= f) R E := by
  intro s hs
  have hxs := hx s hs
  cases h : x s with
  | ok a t =>
    rw [h] at hxs
    rw [bind_of_ok f h]
    exact hf a t hxs
  | error e t =>
    rw [h] at hxs
    rw [bind_of_error f h]
    exact hxs

theorem Triple.map {f : α → β} {R : β → σ → Prop}
    (hx : Triple P x (fun a => R (f a)) E) : Triple P (f <$> x) R E := by
  intro s hs
  have hxs := hx s hs
  show match EStateM.map f x s with
    | .ok b t => R b t
    | .error _ t => E t
  unfold EStateM.map
  cases h : x s with
  | ok a t => rw [h] at hxs; exact hxs
  | error e t => rw [h] at hxs; exact hxs

theorem Triple.pure {a : α} (h : ∀ s, P s → Q a s) : Triple P (pure a : EStateM ε σ α) Q E :=
  fun s hs => h s hs

theorem Triple.throw {e : ε} (h : ∀ s, P s → E s) : Triple P (throw e : EStateM ε σ α) Q E :=
  fun s hs => h s hs

theorem Triple.get_bind {f : σ → EStateM ε σ α} (hf : ∀ t, P t → Triple P (f t) Q E) :
    Triple P (get >>= f) Q E := by
  intro s hs
  have hget : (get : EStateM ε σ σ) s = .ok s s := rfl
  exact hf s hs s hs

theorem Triple.modify {g : σ → σ} {Q : PUnit → σ → Prop} (h : ∀ s, P s → Q ⟨⟩ (g s)) :
    Triple P (modify g : EStateM ε σ PUnit) Q E :=
  fun s hs => h s hs

theorem Triple.weaken {P' : σ → Prop} {Q' : α → σ → Prop} {E' : σ → Prop}
    (hx : Triple P' x Q' E') (hP : ∀ s, P s → P' s) (hQ : ∀ a s, Q' a s → Q a s)
    (hE : ∀ s, E' s → E s) : Triple P x Q E := by
  intro s hs
  have := hx s (hP s hs)
  cases h : x s with
  | ok a t => rw [h] at this; exact hQ a t this
  | error e t => rw [h] at this; exact hE t this

theorem Triple.of_pre {p : Prop} (hp : ∀ s, P s → p) (h : p → Triple P x Q E) : Triple P x Q E :=
  fun s hs => h (hp s hs) s hs

end

end Lib
