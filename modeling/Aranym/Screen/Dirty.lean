/-
  The dirty markers of `dirty_rects.cpp`: one for each block of 16 by 16 pixels,
  and a bounding box kept apart from them.

  Shifts and masks of `int`s are quotients and remainders that round down; a sum
  of `int`s wraps around (`Lib.int`).
-/
import Aranym.Lib.Raster
import Aranym.Lib.Words

namespace Aranym.Screen

open Lib List Function

/-- The class `DirtyRects`; the marker of a block is found by its index. -/
structure DirtyRects where
  areaW : ℤ
  areaH : ℤ
  dirtyW : ℤ
  dirtyH : ℤ
  minDirtX : ℤ
  minDirtY : ℤ
  maxDirtX : ℤ
  maxDirtY : ℤ
  dirtyMarker : ℤ → Bool

/-- `DirtyRects::resizeDirty`: everything is marked. -/
def resizeDirty (width height : ℤ) : DirtyRects where
  areaW := width
  areaH := height
  dirtyW := width / 16 + if width % 16 ≠ 0 then 1 else 0
  dirtyH := height / 16 + if height % 16 ≠ 0 then 1 else 0
  minDirtX := 0
  minDirtY := 0
  maxDirtX := width - 1
  maxDirtY := height - 1
  dirtyMarker _ := true

/-- A rectangle, by its first pixel and its size. -/
structure Rect where
  x : ℤ
  y : ℤ
  w : ℤ
  h : ℤ

/-- The pixels of a rectangle. -/
def Rect.Contains (r : Rect) (x y : ℤ) : Prop := r.x ≤ x ∧ x < r.x + r.w ∧ r.y ≤ y ∧ y < r.y + r.h
deriving Decidable

/-- The rectangle that `setDirtyLine` calls `setDirtyRect` with. -/
def lineRect (x1 y1 x2 y2 : ℤ) : Rect :=
  let (minX, maxX) := if x1 ≤ x2 then (x1, x2) else (x2, x1)
  let (minY, maxY) := if y1 ≤ y2 then (y1, y2) else (y2, y1)
  ⟨minX, minY, int (int (maxX - minX) + 1), int (int (maxY - minY) + 1)⟩

/-- The end of the loops over blocks: `x2 = (x2|15)+1` unless it is at a block, `x2>>=4`. -/
def blockEnd (x2 : ℤ) : ℤ := (if x2 % 16 ≠ 0 then int (x2 / 16 * 16 + 15 + 1) else x2) / 16

/-- The values of a loop variable. -/
def span (x1 x2 : ℤ) : List ℤ := (range (x2 - x1).toNat).map fun (i : ℕ) => x1 + i

namespace DirtyRects
variable (D : DirtyRects)

/-- The body of the loops: the marker of a block, if there is such a block. -/
def mark (marker : ℤ → Bool) (x y : ℤ) : ℤ → Bool :=
  if x ≥ 0 ∧ x < D.dirtyW ∧ y ≥ 0 ∧
    y < D.dirtyH then update marker (y * D.dirtyW + x) true else marker

/-- `DirtyRects::setDirtyRect`; `x2` and `y2` are the ends of the rectangle. -/
def setDirtyRect (r : Rect) : DirtyRects :=
  let x2 := int (r.x + r.w)
  let y2 := int (r.y + r.h)
  { D with
    minDirtX := if r.x < D.minDirtX then r.x / 16 * 16 else D.minDirtX
    minDirtY := if r.y < D.minDirtY then r.y / 16 * 16 else D.minDirtY
    maxDirtX := if int (x2 - 1) > D.maxDirtX then int (x2 - 1) else D.maxDirtX
    maxDirtY := if int (y2 - 1) > D.maxDirtY then int (y2 - 1) else D.maxDirtY
    dirtyMarker := (span (r.y / 16) (blockEnd y2)).foldl (fun m y =>
      (span (r.x / 16) (blockEnd x2)).foldl (fun m x => D.mark m x y) m) D.dirtyMarker }

/-- `DirtyRects::setDirtyLine` -/
def setDirtyLine (x1 y1 x2 y2 : ℤ) : DirtyRects := D.setDirtyRect (lineRect x1 y1 x2 y2)

/-- `DirtyRects::clearDirtyRects` -/
def clearDirtyRects : DirtyRects :=
  { D with
    minDirtX := D.areaW
    minDirtY := D.areaH
    maxDirtX := 0
    maxDirtY := 0
    dirtyMarker := fun _ => false }

/-- `DirtyRects::hasDirtyRect` -/
def hasDirtyRect : Bool := D.minDirtX ≤ D.maxDirtX

/-- The marker of the block in column `x` and row `y`. -/
def marked (x y : ℤ) : Bool := D.dirtyMarker (y * D.dirtyW + x)

end DirtyRects

/-- The two calls that mark blocks. -/
inductive Call
  | rect (r : Rect)
  | line (x1 y1 x2 y2 : ℤ)

/-- The rectangle that a call is about; a line is the diagonal of its rectangle. -/
def Call.bounds : Call → Rect
  | .rect r => r
  | .line x1 y1 x2 y2 =>
      ⟨min x1 x2, min y1 y2, max x1 x2 - min x1 x2 + 1, max y1 y2 - min y1 y2 + 1⟩

/-- In one direction: the last block that the side of a rectangle meets ends within an `int`, and so
    does the length of the side. -/
def InRange (x w : ℤ) : Prop := -2 ^ 31 ≤ x ∧ 1 ≤ w ∧ w < 2 ^ 31 ∧ x + w ≤ 2 ^ 31 - 16

/-- No sum of the call overflows. -/
def Call.Fits (c : Call) : Prop := InRange c.bounds.x c.bounds.w ∧ InRange c.bounds.y c.bounds.h

/-- The state after a call. -/
def DirtyRects.call (D : DirtyRects) : Call → DirtyRects
  | .rect r => D.setDirtyRect r
  | .line x1 y1 x2 y2 => D.setDirtyLine x1 y1 x2 y2

theorem mem_span {x x1 x2 : ℤ} : x ∈ span x1 x2 ↔ x1 ≤ x ∧ x < x2 := by
  simp only [span, mem_map, mem_range]
  exact ⟨by rintro ⟨i, hi, rfl⟩; omega, fun h => ⟨(x - x1).toNat, by omega, by omega⟩⟩

theorem InRange.int_end {x w : ℤ} (h : InRange x w) :
    int (x + w) = x + w ∧ int (x + w - 1) = x + w - 1 := by
  obtain ⟨hx, hw, -, hend⟩ := h
  exact ⟨int_of_mem (by omega), int_of_mem (by omega)⟩

theorem InRange.blockEnd_eq {x w : ℤ} (h : InRange x w) :
    blockEnd (x + w) = (if (x + w) % 16 ≠ 0 then (x + w) / 16 * 16 + 15 + 1 else x + w) / 16 := by
  obtain ⟨hx, hw, -, hend⟩ := h
  rw [blockEnd]
  split_ifs with hrest
  · rw [int_of_mem (by omega)]
  · rfl

/-- A block is between the bounds of the loop when it has a pixel of the rectangle. -/
theorem block_iff {x w i : ℤ} (h : InRange x w) :
    (x / 16 ≤ i ∧ i < blockEnd (x + w)) ↔ ∃ p, (x ≤ p ∧ p < x + w) ∧ p / 16 = i := by
  have hw := h.2.1
  rw [h.blockEnd_eq]
  constructor
  · intro h
    exact ⟨max x (16 * i), by split_ifs at h <;> omega, by split_ifs at h <;> omega⟩
  · rintro ⟨p, hp, rfl⟩
    split_ifs <;> omega

namespace DirtyRects
variable {D : DirtyRects} {x y : ℤ}

/-- `x` and `y` are those of a block. -/
def Block (D : DirtyRects) (x y : ℤ) : Prop := 0 ≤ x ∧ x < D.dirtyW ∧ 0 ≤ y ∧ y < D.dirtyH

theorem mark_apply (hb : D.Block x y) (m : ℤ → Bool) (i j : ℤ) :
    D.mark m i j (y * D.dirtyW + x) ↔ m (y * D.dirtyW + x) ∨ i = x ∧ j = y := by
  obtain ⟨hx, hxw, hy, hyh⟩ := hb
  unfold mark
  split_ifs with h
  · by_cases heq : y * D.dirtyW + x = j * D.dirtyW + i
    · have hrow : (1 : ℤ) * D.dirtyW.toNat ≤ D.dirtyW := by omega
      obtain ⟨rfl, rfl⟩ := row_inj one_pos hrow hx (by omega) h.1 (by omega) (by simpa using heq)
      simp
    · rw [update_of_ne heq]
      refine ⟨.inl, fun h' => h'.resolve_right ?_⟩
      rintro ⟨rfl, rfl⟩
      exact heq rfl
  · exact ⟨.inl, fun h' => h'.resolve_right fun ⟨hi, hj⟩ => h (by omega)⟩

theorem foldl_or {α : Type*} {step : (ℤ → Bool) → α → ℤ → Bool} {i : ℤ} {P : α → Prop}
    (hstep : ∀ m a, step m a i ↔ m i ∨ P a) (l : List α) (m : ℤ → Bool) :
    l.foldl step m i ↔ m i ∨ ∃ a ∈ l, P a := by
  induction l generalizing m with
  | nil => simp
  | cons a l ih => rw [foldl_cons, ih, hstep, exists_mem_cons_iff, or_assoc]

/-- **One call**: the blocks that have a pixel of the rectangle are marked besides. -/
theorem marked_setDirtyRect (hb : D.Block x y) {r : Rect} (hw : InRange r.x r.w)
    (hh : InRange r.y r.h) :
    (D.setDirtyRect r).marked x y ↔
      D.marked x y ∨ ∃ px py, r.Contains px py ∧ px / 16 = x ∧ py / 16 = y := by
  have hloop := foldl_or (fun m j => foldl_or (fun m i => mark_apply hb m i j)
    (span (r.x / 16) (blockEnd (r.x + r.w))) m)
      (span (r.y / 16) (blockEnd (r.y + r.h))) D.dirtyMarker
  rw [marked, setDirtyRect, hw.int_end.1, hh.int_end.1]
  refine hloop.trans (or_congr_right ?_)
  simp only [mem_span]
  constructor
  · rintro ⟨j, hj, i, hi, rfl, rfl⟩
    obtain ⟨px, hpx, rfl⟩ := (block_iff hw).1 hi
    obtain ⟨py, hpy, rfl⟩ := (block_iff hh).1 hj
    exact ⟨px, py, ⟨hpx.1, hpx.2, hpy.1, hpy.2⟩, rfl, rfl⟩
  · rintro ⟨px, py, ⟨hx, hxw, hy, hyh⟩, rfl, rfl⟩
    exact ⟨_, (block_iff hh).2 ⟨py, ⟨hy, hyh⟩, rfl⟩, _,
      (block_iff hw).2 ⟨px, ⟨hx, hxw⟩, rfl⟩, rfl, rfl⟩

/-- The pixel is inside the bounding box. -/
def Box (D : DirtyRects) (x y : ℤ) : Prop :=
  D.minDirtX ≤ x ∧ x ≤ D.maxDirtX ∧ D.minDirtY ≤ y ∧ y ≤ D.maxDirtY

theorem box_setDirtyRect {r : Rect} (hw : InRange r.x r.w) (hh : InRange r.y r.h)
    (h : r.Contains x y ∨ D.Box x y) : (D.setDirtyRect r).Box x y := by
  simp only [Box, Rect.Contains, setDirtyRect, hw.int_end, hh.int_end] at h ⊢
  split_ifs <;> omega

/-- Without an overflow a line is its rectangle. -/
theorem call_eq (D : DirtyRects) {c : Call} (hc : c.Fits) : D.call c = D.setDirtyRect c.bounds := by
  cases c with
  | rect r => rfl
  | line x1 y1 x2 y2 =>
    obtain ⟨⟨-, -, hw, -⟩, -, -, hh, -⟩ := hc
    simp only [Call.bounds] at hw hh
    have hx : int (int (max x1 x2 - min x1 x2) + 1) = max x1 x2 - min x1 x2 + 1 := by
      rw [int_of_mem (v := max x1 x2 - min x1 x2) (by omega), int_of_mem (by omega)]
    have hy : int (int (max y1 y2 - min y1 y2) + 1) = max y1 y2 - min y1 y2 + 1 := by
      rw [int_of_mem (v := max y1 y2 - min y1 y2) (by omega), int_of_mem (by omega)]
    refine congrArg D.setDirtyRect ?_
    rw [lineRect, Call.bounds, ← hx, ← hy]
    rcases le_total x1 x2 with h | h <;> rcases le_total y1 y2 with h' | h' <;> grind

end DirtyRects

open DirtyRects

/-- The rectangle of a call has a pixel in the block. -/
def Meets (calls : List Call) (x y : ℤ) : Prop :=
  ∃ c ∈ calls, ∃ px py, c.bounds.Contains px py ∧ px / 16 = x ∧ py / 16 = y

/-- **Any run of calls.** -/
theorem dirty_run {D : DirtyRects} {calls : List Call} (hfits : ∀ c ∈ calls, c.Fits) :
    (∀ c ∈ calls, ∀ px py, c.bounds.Contains px py → (calls.foldl call D).Box px py) ∧
      ∀ x y, D.Block x y → (calls.foldl call D).Block x y ∧
        ((calls.foldl call D).marked x y ↔ D.marked x y ∨ Meets calls x y) := by
  induction calls using reverseRecOn with
  | nil => simp [Meets]
  | append_singleton calls c ih =>
    have hc := hfits c (by simp)
    obtain ⟨hbox, hmarked⟩ := ih fun c hc => hfits c (mem_append_left _ hc)
    rw [foldl_append, foldl_cons, foldl_nil, call_eq _ hc]
    refine ⟨fun c' hc' px py hp => box_setDirtyRect hc.1 hc.2 ?_, fun x y hb => ?_⟩
    · rcases mem_append.1 hc' with h | h
      · exact .inr (hbox c' h px py hp)
      · exact .inl (mem_singleton.1 h ▸ hp)
    · obtain ⟨hb', hiff⟩ := hmarked x y hb
      refine ⟨hb', ?_⟩
      rw [marked_setDirtyRect hb' hc.1 hc.2, hiff, or_assoc]
      simp [Meets, or_and_right, exists_or]

/-- The state after some calls since the last `clearDirtyRects`. -/
def DirtyRects.since (D : DirtyRects) (calls : List Call) : DirtyRects :=
  calls.foldl call D.clearDirtyRects

/-- **Dirty tracking**, for every run of calls of which none overflows: the marked blocks are those
    with a pixel of a rectangle, which is inside the bounding box, and a mark is never
    overlooked. -/
theorem dirty_tracking (D : DirtyRects) (calls : List Call) (hfits : ∀ c ∈ calls, c.Fits) :
    (∀ x y, D.Block x y → ((D.since calls).marked x y ↔ Meets calls x y)) ∧
      (∀ c ∈ calls, ∀ px py, c.bounds.Contains px py → (D.since calls).Box px py) ∧
      ∀ x y, D.Block x y → (D.since calls).marked x y → (D.since calls).hasDirtyRect := by
  obtain ⟨hbox, hmarked⟩ := dirty_run (D := D.clearDirtyRects) hfits
  have hiff : ∀ x y, D.Block x y → ((D.since calls).marked x y ↔ Meets calls x y) :=
    fun x y hb => (hmarked x y hb).2.trans (by simp [marked, clearDirtyRects])
  refine ⟨hiff, hbox, fun x y hb hm => ?_⟩
  obtain ⟨c, hc, px, py, hp, -⟩ := (hiff x y hb).1 hm
  have h := hbox c hc px py hp
  exact decide_eq_true (h.1.trans h.2.1)

theorem dirty_tracking_left :
    ((resizeDirty 64 64).since [.rect ⟨-5, 20, 8, 1⟩, .line 40 40 3 7]).marked 0 1 = true :=
  ((dirty_tracking (resizeDirty 64 64) _ (by simp [Call.Fits, InRange, Call.bounds])).1 0 1
    (by simp [Block, resizeDirty])).2
    ⟨.rect ⟨-5, 20, 8, 1⟩, by simp, 0, 20, by simp [Call.bounds, Rect.Contains]⟩

/-- A rectangle that is as wide as an `int` can say: its end wraps around, and no block is
    marked. -/
theorem wide_rect_unmarked : Meets [.rect ⟨10, 0, 2 ^ 31 - 1, 1⟩] 1 0 ∧
    ((resizeDirty 64 64).since [.rect ⟨10, 0, 2 ^ 31 - 1, 1⟩]).marked 1 0 = false := by
  refine ⟨⟨_, mem_singleton_self _, 16, 0, by decide, by decide, by decide⟩, by decide⟩

end Aranym.Screen
