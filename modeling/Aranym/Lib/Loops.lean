/-
  Nested counted loops.

  A nest is the loops that are being executed, the innermost first; each has its
  first and its last address and the passes that are left.  `Step` is an
  instruction of a machine with such loops, with a flag that tells whether it
  ends a pass of the outermost loop.
-/
import Mathlib.Data.Nat.Count

namespace Lib

/-- A loop. -/
structure Loop where
  first : ℕ
  last : ℕ
  left : ℕ

/-- The loops and the address. -/
structure Nest where
  pc : ℕ
  loops : List Loop

/-- An instruction in the body of the innermost loop, one that enters a loop within it, and the last
    one of a pass, after which the loop is repeated or left. -/
inductive Step : Nest → Bool → Nest → Prop
  | inside {pc pc' : ℕ} {l : Loop} {ls : List Loop} : l.first ≤ pc' → pc' ≤ l.last →
      Step ⟨pc, l :: ls⟩ false ⟨pc', l :: ls⟩
  | enter {pc : ℕ} {l m : Loop} {ls : List Loop} : l.first ≤ m.first → m.first ≤ m.last →
      m.last < l.last →
      0 < m.left → Step ⟨pc, l :: ls⟩ false ⟨m.first, m :: l :: ls⟩
  | again {pc : ℕ} {l : Loop} {ls : List Loop} : 1 < l.left →
      Step ⟨pc, l :: ls⟩ ls.isEmpty ⟨l.first, { l with left := l.left - 1 } :: ls⟩
  | leave {pc : ℕ} {l : Loop} {ls : List Loop} : l.left = 1 →
      Step ⟨pc, l :: ls⟩ ls.isEmpty ⟨l.last + 1, ls⟩

/-- Loops within `l`, of which `k` passes have ended. -/
inductive Running (l : Loop) (k : ℕ) : List Loop → Prop
  | outer : k < l.left → Running l k [{ l with left := l.left - k }]
  | inner {m o : Loop} {os : List Loop} : Running l k (o :: os) → o.first ≤ m.first →
    m.first ≤ m.last →
      m.last < o.last → 0 < m.left → Running l k (m :: o :: os)

/-- The address is in the body of the innermost loop. -/
def InBody (a : Nest) : Prop := ∃ m os, a.loops = m :: os ∧ m.first ≤ a.pc ∧ a.pc ≤ m.last

/-- In the body after `k` passes. -/
structure Inside (l : Loop) (k : ℕ) (a : Nest) : Prop where
  running : Running l k a.loops
  body : InBody a

variable {l : Loop} {k : ℕ} {a a' : Nest} {b : Bool}

namespace Running

theorem lt {ls : List Loop} (h : Running l k ls) : k < l.left := by
  induction h with
  | outer hk => exact hk
  | inner _ _ _ _ _ ih => exact ih

theorem ne_nil {ls : List Loop} (h : Running l k ls) : ls ≠ [] := by
  cases h <;> exact List.cons_ne_nil _ _

theorem within {m : Loop} {os : List Loop} (h : Running l k (m :: os)) (hl : l.first ≤ l.last) :
    l.first ≤ m.first ∧ m.first ≤ m.last ∧ m.last ≤ l.last := by
  generalize he : m :: os = ls at h
  induction h generalizing m os with
  | outer _ =>
    obtain ⟨rfl, -⟩ := List.cons.inj he
    exact ⟨le_rfl, hl, le_rfl⟩
  | inner _ hf hm hlast _ ih =>
    obtain ⟨rfl, -⟩ := List.cons.inj he
    obtain ⟨h1, -, h3⟩ := ih rfl
    exact ⟨h1.trans hf, hm, (hlast.trans_le h3).le⟩

theorem last_eq {m : Loop} (h : Running l k [m]) : m.last = l.last := by
  cases h
  rfl

end Running

namespace Inside

theorem start (hl : l.first ≤ l.last) (hp : 0 < l.left) : Inside l 0 ⟨l.first, [l]⟩ :=
  ⟨.outer hp, l, [], rfl, le_rfl, hl⟩

theorem pc_within (h : Inside l k a) (hl : l.first ≤ l.last) : l.first ≤ a.pc ∧ a.pc ≤ l.last := by
  obtain ⟨m, os, he, hf, hlast⟩ := h.body
  obtain ⟨h1, -, h3⟩ := (he ▸ h.running).within hl
  exact ⟨h1.trans hf, hlast.trans h3⟩

/-- **One step**: the nest goes on, from the beginning of the outermost loop if one of its passes
    has ended, or the outermost loop is left with its last pass. -/
theorem step (h : Inside l k a) (hl : l.first ≤ l.last) (hs : Step a b a') :
    (Inside l (k + b.toNat) a' ∧ (b = true → a'.pc = l.first)) ∨
      (b = true ∧ k + 1 = l.left ∧ a' = ⟨l.last + 1, []⟩) := by
  cases hs with
  | inside hf hlast => exact .inl ⟨⟨h.running, _, _, rfl, hf, hlast⟩, nofun⟩
  | enter hf hm hlast hp =>
    exact .inl ⟨⟨h.running.inner hf hm hlast hp, _, _, rfl, le_rfl, hm⟩, nofun⟩
  | again hleft =>
    left
    cases h.running with
    | outer hk =>
      refine ⟨⟨?_, _, _, rfl, le_rfl, hl⟩, fun _ => rfl⟩
      have hnext : k + 1 < l.left := by
        simp only at hleft
        omega
      have hrun : Running l (k + 1) [{ l with left := l.left - (k + 1) }] := .outer hnext
      simpa [Nat.sub_sub] using hrun
    | inner ho hf hm hlast hp =>
      refine ⟨⟨?_, _, _, rfl, le_rfl, hm⟩, nofun⟩
      exact ho.inner hf hm hlast (Nat.sub_pos_of_lt hleft)
  | leave hleft =>
    cases h.running with
    | outer hk =>
      right
      simp only at hleft
      exact ⟨rfl, by omega, rfl⟩
    | inner ho hf hm hlast hp =>
      left
      exact ⟨⟨ho, _, _, rfl, by simp only; omega, by simp only; omega⟩, nofun⟩

end Inside

section Machine

variable {S : Type*} {s : ℕ → S} {R : S → Nest → Prop} {active : S → Prop} {ends : S → Bool}

theorem inside_of_active (hl : l.first ≤ l.last) (hp : 0 < l.left) (h0 : R (s 0) ⟨l.first, [l]⟩)
    (hactive : ∀ x a, R x a → active x → a.loops ≠ [])
    (hstep : ∀ t k a, (∀ u ≤ t, active (s u)) → R (s t) a → Inside l k a →
      ∃ a', Step a (ends (s t)) a' ∧ R (s (t + 1)) a') :
    ∀ t, (∀ u ≤ t, active (s u)) → ∃ a, R (s t) a ∧
    Inside l (Nat.count (fun u => ends (s u) = true) t) a := by
  intro t
  induction t with
  | zero => exact fun _ => ⟨_, h0, by simpa using Inside.start hl hp⟩
  | succ t ih =>
    intro hact
    obtain ⟨a, hr, hin⟩ := ih fun u hu => hact u (by omega)
    obtain ⟨a', hs, hr'⟩ := hstep t _ a (fun u hu => hact u (by omega)) hr hin
    rcases hin.step hl hs with ⟨hin', -⟩ | ⟨-, -, rfl⟩
    · refine ⟨a', hr', ?_⟩
      rw [Nat.count_succ]
      cases hb : ends (s t) <;> simpa [hb] using hin'
    · exact absurd rfl (hactive _ _ hr' (hact (t + 1) le_rfl))

/-- **Counted loops.**  If every pass of the outermost loop ends, it is left after as many passes as
    it had left, each from its first address to its last. -/
theorem exists_counted (pc : S → ℕ) (hl : l.first ≤ l.last) (hp : 0 < l.left)
    (h0 : R (s 0) ⟨l.first, [l]⟩)
    (hactive : ∀ x a, R x a → (active x ↔ a.loops ≠ [])) (hpc : ∀ x a, R x a → pc x = a.pc)
    (hstep : ∀ t k a, (∀ u ≤ t, active (s u)) → R (s t) a → Inside l k a →
      ∃ a', Step a (ends (s t)) a' ∧ R (s (t + 1)) a')
    (hpass : ∀ t, (∀ u ≤ t, active (s u)) → ∃ u, t ≤ u ∧ (∀ v ≤ u, active (s v)) ∧
      ends (s u) = true) :
    ∃ n, Nat.count (fun t => ends (s t) = true) n = l.left ∧
      (∀ t < n, active (s t) ∧ l.first ≤ pc (s t) ∧ pc (s t) ≤ l.last) ∧
      (∀ t, t + 1 < n → ends (s t) = true → pc (s (t + 1)) = l.first) ∧
      R (s n) ⟨l.last + 1, []⟩ := by
  have hin := inside_of_active hl hp h0 (fun x a hr => (hactive x a hr).1) hstep
  -- the passes are bounded, so the loop is left
  have hleft : ∃ n, ¬ active (s n) := by
    by_contra hall
    push Not at hall
    have hmany : ∀ c, ∃ t, c ≤ Nat.count (fun u => ends (s u) = true) t := by
      intro c
      induction c with
      | zero => exact ⟨0, Nat.zero_le _⟩
      | succ c ih =>
        obtain ⟨t, ht⟩ := ih
        obtain ⟨u, htu, -, hu⟩ := hpass t fun v _ => hall v
        refine ⟨u + 1, ?_⟩
        have hmono := Nat.count_monotone (fun u => ends (s u) = true) htu
        rw [Nat.count_succ, if_pos hu]
        omega
    obtain ⟨t, ht⟩ := hmany l.left
    obtain ⟨a, -, hina⟩ := hin t fun u _ => hall u
    exact absurd hina.running.lt (not_lt.2 ht)
  classical
  obtain ⟨n, hn, hmin⟩ : ∃ n, ¬ active (s n) ∧ ∀ t < n, active (s t) :=
    ⟨Nat.find hleft, Nat.find_spec hleft, fun t ht => not_not.1 (Nat.find_min hleft ht)⟩
  have hact : ∀ t < n, ∀ u ≤ t, active (s u) := fun t ht u hu => hmin u (by omega)
  cases n with
  | zero => exact absurd ((hactive _ _ h0).2 (List.cons_ne_nil _ _)) hn
  | succ t =>
    obtain ⟨a, hr, hina⟩ := hin t (hact t (by omega))
    obtain ⟨a', hs, hr'⟩ := hstep t _ a (hact t (by omega)) hr hina
    rcases hina.step hl hs with ⟨hin', -⟩ | ⟨hb, hk, rfl⟩
    · exact absurd ((hactive _ _ hr').2 hin'.running.ne_nil) hn
    · refine ⟨t + 1, ?_, fun u hu => ?_, fun u hu hbu => ?_, hr'⟩
      · rw [Nat.count_succ, if_pos hb]
        exact hk
      · obtain ⟨c, hrc, hinc⟩ := hin u (hact u hu)
        rw [hpc _ _ hrc]
        exact ⟨hmin u hu, hinc.pc_within hl⟩
      · obtain ⟨c, hrc, hinc⟩ := hin u (hact u (by omega))
        obtain ⟨c', hsc, hrc'⟩ := hstep u _ c (hact u (by omega)) hrc hinc
        rcases hinc.step hl hsc with ⟨-, hfirst⟩ | ⟨-, -, rfl⟩
        · rw [hpc _ _ hrc']
          exact hfirst hbu
        · exact absurd rfl ((hactive _ _ hrc').1 (hmin (u + 1) hu))

end Machine

end Lib
