/-
  Key events (`process_keyboard_event` of `input.cpp`).

  Page Up and Page Down are sent as arrow keys with the left shift key, which is pressed and
  released with them if no shift key is held at that moment.
-/
import Mathlib.Data.List.Basic
import Aranym.Lib.Run

namespace Aranym.Input

open Lib

/-- A scancode, and bit 7 of the code for the IKBD, which is set for a release. -/
abbrev Code := BitVec 7 × Bool

/-- `keysym.sym`; `key` are the keys that are sent by their scancodes. -/
inductive Sym (κ : Type)
  | pageUp
  | pageDown
  | capsLock
  | key (k : κ)
deriving DecidableEq

/-- A key event with the state of the modifiers.  A hotkey may release some keys. -/
structure KeyEvent (κ : Type) where
  sym : Sym κ
  pressed : Bool
  shifted : Bool := false
  capslocked : Bool := false
  hotkey : Option (List (BitVec 7)) := none

namespace KeyEvent

variable {κ : Type} (keysymToAtari : κ → BitVec 7) (e : KeyEvent κ)

/-- Page Up or Page Down as the arrow key `c`. -/
def page (c : BitVec 7) : List Code :=
  if e.pressed then (if e.shifted then [] else [(0x2a, false)]) ++ [(c, false)]
  else (c, true) :: if e.shifted then [] else [(0x2a, true)]

/-- The codes of the event itself. -/
def keys : List Code :=
  let hotkey := if e.pressed then e.hotkey else none
  (hotkey.getD []).map (·, true) ++ match e.sym with
    | .pageUp => e.page 0x48
    | .pageDown => e.page 0x50
    | .capsLock => []
    | .key k => if hotkey.isSome ∨ keysymToAtari k = 0 then [] else [(keysymToAtari k, !e.pressed)]

/-- The state is `CapslockState`. -/
def processKeyboardEvent (capslockState : Bool) : Bool × List Code :=
  (e.capslocked,
    (if capslockState ≠ e.capslocked then [(0x3a, false), (0x3a, true)] else []) ++
    e.keys keysymToAtari)

end KeyEvent

open KeyEvent

variable {κ : Type} {scan : κ → BitVec 7}

/-- The codes that a sequence of events sends. -/
def sent (scan : κ → BitVec 7) (capslockState : Bool) (es : List (KeyEvent κ)) : List Code :=
  (outputs (fun s e => e.processKeyboardEvent scan s) capslockState es).flatten

/-- The last code of every scancode is a release. -/
def Released (codes : List Code) : Prop :=
  ∀ c, ∀ x ∈ (codes.filter (·.1 = c)).getLast?, x.2 = true

/-- Every event is in the relation to the events after it. -/
def Followed (P : KeyEvent κ → List (KeyEvent κ) → Prop) : List (KeyEvent κ) → Prop
  | [] => True
  | e :: post => P e post ∧ Followed P post

/-- The key is released later. -/
def KeyUp (e : KeyEvent κ) (post : List (KeyEvent κ)) : Prop :=
  e.pressed = true → ∃ f ∈ post, f.sym = e.sym ∧ f.pressed = false

/-- Page Up or Page Down presses the left shift key. -/
def KeyEvent.HoldsShift (e : KeyEvent κ) : Prop :=
  (e.sym = .pageUp ∨ e.sym = .pageDown) ∧ e.pressed = true ∧ e.shifted = false

/-- The left shift key goes up: a page key is released while no shift key is held, a key with its
    scancode is released, or a hotkey is pressed that releases it. -/
def KeyEvent.ReleasesShift (scan : κ → BitVec 7) (e : KeyEvent κ) : Prop :=
  e.pressed = false ∧ ((e.sym = .pageUp ∨ e.sym = .pageDown) ∧ e.shifted = false ∨
    ∃ k, e.sym = .key k ∧ scan k = 0x2a) ∨
  e.pressed = true ∧ ∃ scancodes, e.hotkey = some scancodes ∧ 0x2a ∈ scancodes

/-- The left shift key that a page key presses goes up later. -/
def ShiftUp (scan : κ → BitVec 7) (e : KeyEvent κ) (post : List (KeyEvent κ)) : Prop :=
  e.HoldsShift → ∃ f ∈ post, f.ReleasesShift scan

theorem released_append {a b : List Code} : Released (a ++ b) ↔
    Released b ∧ ∀ c, (∀ y ∈ b, y.1 ≠ c) → ∀ x ∈ (a.filter (·.1 = c)).getLast?, x.2 = true := by
  simp only [Released, List.filter_append, List.getLast?_append]
  constructor
  · intro h
    refine ⟨fun c x hx => h c x ?_, fun c hb x hx => h c x ?_⟩
    · rw [hx]
      rfl
    · rwa [List.filter_eq_nil_iff.2 (by simpa using hb)]
  · rintro ⟨hb, ha⟩ c x hx
    cases hlast : (b.filter (·.1 = c)).getLast? with
    | some y => exact hb c x (by simpa [hlast] using hx)
    | none =>
      have hnil := List.filter_eq_nil_iff.1 (List.getLast?_eq_none_iff.1 hlast)
      exact ha c (by simpa using hnil) x (by simpa [hlast] using hx)

theorem keys_press {e : KeyEvent κ} {c : BitVec 7} (h : (c, false) ∈ e.keys scan) :
    e.HoldsShift ∧ c = 0x2a ∨
      e.pressed = true ∧ ∀ f : KeyEvent κ, f.sym = e.sym → f.pressed = false →
      (c, true) ∈ f.keys scan := by
  obtain ⟨sym, pressed, shifted, capslocked, hotkey⟩ := e
  cases sym <;> cases pressed <;> cases shifted <;>
    simp_all [keys, page, HoldsShift]
  all_goals exact h.imp_right fun hc _ _ _ => .inl hc

theorem mem_keys_shift {e : KeyEvent κ} : (0x2a, true) ∈ e.keys scan ↔ e.ReleasesShift scan := by
  obtain ⟨sym, pressed, shifted, capslocked, hotkey⟩ := e
  cases sym <;> cases pressed <;> cases shifted <;> cases hotkey <;>
    simp [keys, page, ReleasesShift]
  all_goals grind

theorem sent_cons (s : Bool) (e : KeyEvent κ) (es : List (KeyEvent κ)) :
    sent scan s (e :: es) = (if s ≠ e.capslocked then [(0x3a, false), (0x3a, true)] else []) ++
      (e.keys scan ++ sent scan e.capslocked es) := List.append_assoc ..

theorem mem_sent {f : KeyEvent κ} {x : Code} (hx : x ∈ f.keys scan)
    {es : List (KeyEvent κ)} (hf : f ∈ es) (s : Bool) : x ∈ sent scan s es := by
  induction es generalizing s with
  | nil => cases hf
  | cons e es ih =>
    rw [sent_cons]
    obtain rfl | hf := List.mem_cons.1 hf
    · exact List.mem_append_right _ (List.mem_append_left _ hx)
    · exact List.mem_append_right _ (List.mem_append_right _ (ih hf _))

theorem exists_of_mem_sent {x : Code} (hx : x.1 ≠ 0x3a) {es : List (KeyEvent κ)} {s : Bool}
    (h : x ∈ sent scan s es) : ∃ f ∈ es, x ∈ f.keys scan := by
  induction es generalizing s with
  | nil => cases h
  | cons e es ih =>
    rw [sent_cons, List.mem_append, List.mem_append] at h
    obtain h | h | h := h
    · have hcaps : x.1 = 0x3a := by
        split_ifs at h with hs
        · simp only [List.mem_cons, List.not_mem_nil, or_false] at h
          obtain rfl | rfl := h <;> rfl
        · cases h
      exact absurd hcaps hx
    · exact ⟨e, .head _, h⟩
    · obtain ⟨f, hf, hxf⟩ := ih h
      exact ⟨f, .tail _ hf, hxf⟩

/-- What an event leaves pressed is released later, but for the left shift key of a page key. -/
theorem keys_released_iff {e : KeyEvent κ} {es : List (KeyEvent κ)} (hup : KeyUp e es) {s : Bool}
    (hes : Released (sent scan s es)) : (∀ c, (∀ y ∈ sent scan s es, y.1 ≠ c) →
      ∀ x ∈ ((e.keys scan).filter (·.1 = c)).getLast?, x.2 = true) ↔ ShiftUp scan e es := by
  constructor
  · intro h hshift
    by_cases hnone : ∀ y ∈ sent scan s es, y.1 ≠ 0x2a
    · have hlast := h 0x2a hnone (0x2a, false)
      obtain ⟨hsym | hsym, hpressed, hshifted⟩ := hshift <;>
        simp [keys, page, hsym, hpressed, hshifted] at hlast
    · push Not at hnone
      obtain ⟨y, hy, hy2a⟩ := hnone
      have hne : (sent scan s es).filter (·.1 = 0x2a) ≠ [] :=
        List.ne_nil_of_mem (List.mem_filter.2 ⟨hy, by simpa using hy2a⟩)
      obtain ⟨hmem, h2a⟩ := List.mem_filter.1 (List.getLast_mem hne)
      have hrelease := hes 0x2a _ (List.getLast?_eq_some_getLast hne)
      have hx : _ = ((0x2a, true) : Code) := Prod.ext (by simpa using h2a) hrelease
      obtain ⟨f, hf, hkeys⟩ := exists_of_mem_sent (by decide) (hx ▸ hmem)
      exact ⟨f, hf, mem_keys_shift.1 hkeys⟩
  · intro h c hc x hx
    have hmem := List.mem_filter.1 (List.mem_of_getLast? hx)
    obtain ⟨c', b⟩ := x
    obtain rfl : c' = c := by simpa using hmem.2
    cases b with
    | true => rfl
    | false =>
      obtain ⟨hshift, rfl⟩ | ⟨hpressed, hrelease⟩ := keys_press hmem.1
      · obtain ⟨f, hf, hx⟩ := h hshift
        exact absurd rfl (hc _ (mem_sent (mem_keys_shift.2 hx) hf s))
      · obtain ⟨f, hf, hsym, hrel⟩ := hup hpressed
        exact absurd rfl (hc _ (mem_sent (hrelease f hsym hrel) hf s))

/-- **No stuck keys**, for every sequence of events in which all keys are released: the last code of
    every scancode is a release exactly if the left shift key of every page key goes up later. -/
theorem no_stuck_keys_iff (scan : κ → BitVec 7) (s : Bool) {es : List (KeyEvent κ)}
    (hup : Followed KeyUp es) : Released (sent scan s es) ↔ Followed (ShiftUp scan) es := by
  induction es generalizing s with
  | nil => exact iff_of_true (by simp [Released, sent, outputs]) trivial
  | cons e es ih =>
    have htoggle : ∀ c,
      ∀ x ∈ ((if s ≠ e.capslocked then [(0x3a, false), (0x3a, true)] else [] : List Code).filter
        (·.1 = c)).getLast?, x.2 = true := by
      intro c
      by_cases hc : 0x3a = c <;> split_ifs <;> simp [hc]
    rw [sent_cons, released_append, released_append, and_iff_left fun c _ => htoggle c,
      ih _ hup.2, and_comm]
    exact and_congr_left fun hes => keys_released_iff hup.1 ((ih _ hup.2).2 hes)

theorem pageUp_released : Released (sent (fun _ : Unit => 0x1e) false
    [⟨.pageUp, true, false, false, none⟩, ⟨.pageUp, false, false, false, none⟩]) :=
  (no_stuck_keys_iff _ _ (by simp [Followed, KeyUp])).2
    (by simp [Followed, ShiftUp, HoldsShift, ReleasesShift])

/-- Page Up is released while the right shift key is held. -/
theorem shift_stuck :
    ¬ Released (sent (fun _ : Unit => 0x36) false
      [⟨.pageUp, true, false, false, none⟩, ⟨.key (), true, true, false, none⟩,
      ⟨.pageUp, false, true, false, none⟩, ⟨.key (), false, false, false, none⟩]) := fun h =>
  absurd (h 0x2a (0x2a, false) (by decide)) (by decide)

end Aranym.Input
