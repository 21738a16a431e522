/-
  Polygons of the NF VDI driver (`SoftVdiDriver::fillPoly`).

  Every scanline is filled between the crossings of the outline, through calls
  of `hsFillArea`.  `Outcome` is what such a run does: the entries of the index
  array that it reads, its calls, and how it ends.
-/
import Aranym.Vdi.Polylines

namespace Aranym.Vdi

open Lib List
open List (range' range)

open Surface

/-! ## The driver -/

/-- Conversion to `long`, of 64 bits. -/
def long (v : ℤ) : ℤ := (v + 2 ^ 63) % 2 ^ 64 - 2 ^ 63

/-- In 16 bits. -/
def smulDiv (x y z : ℤ) : ℤ := int16 ((long (x * y)).tdiv z)

/-- The arrays of `fillPoly`.  Positions outside of them hold something, too. -/
structure PolyArrays where
  p : ℤ → ℤ × ℤ
  n : ℕ
  index : ℤ → ℤ
  moves : ℕ
  x_mem : ∀ i, -0x8000 ≤ (p i).1 ∧ (p i).1 < 0x8000
  y_mem : ∀ i, -0x8000 ≤ (p i).2 ∧ (p i).2 < 0x8000

/-- What one edge adds to `crossing`. -/
def edgeCrossing (y : ℤ) (a b : ℤ × ℤ) : List ℤ :=
  if a.2 < b.2 then
    if y ≥ a.2 ∧ y < b.2 then [int16 (smulDiv (y - a.2) (b.1 - a.1) (b.2 - a.2) + a.1)] else []
  else if a.2 > b.2 then
    if y ≥ b.2 ∧ y < a.2 then [int16 (smulDiv (y - b.2) (a.1 - b.1) (a.2 - b.2) + b.1)] else []
  else []

/-- A scanline: the crossings, and the positions of `index` that are read. -/
structure Line where
  crossing : List ℤ
  reads : List ℤ

/-- The edges without moves, from point `i` on; `count` points are left. -/
def closedLoop (p : ℤ → ℤ × ℤ) (y : ℤ) : ℕ → ℕ → ℤ × ℤ → List ℤ
  | 0, _, _ => []
  | count + 1, i, prev => edgeCrossing y prev (p i) ++ closedLoop p y count (i + 1) (p i)

/-- The edges with moves. -/
def movedLoop (p : ℤ → ℤ × ℤ) (index : ℤ → ℤ) (y : ℤ) : ℕ → ℕ → ℤ × ℤ → ℤ → ℤ → Line
  | 0, _, _, _, _ => ⟨[], []⟩
  | count + 1, i, prev, move_n, movepnt =>
    if i = movepnt then
      if 0 ≤ move_n - 1 then
        let rest := movedLoop p index y count (i + 1) (p i) (move_n - 1)
          ((index (move_n - 1) + 4).tdiv 2)
        ⟨rest.crossing, (move_n - 1) :: rest.reads⟩
      else movedLoop p index y count (i + 1) (p i) (move_n - 1) (-1)
    else
      let rest := movedLoop p index y count (i + 1) (p i) move_n movepnt
      ⟨edgeCrossing y prev (p i) ++ rest.crossing, rest.reads⟩

/-- A call of `hsFillArea`: `w` pixels of row `y`. -/
structure FillCall where
  x : ℤ
  y : ℤ
  w : ℤ
  deriving DecidableEq, Repr

/-- The part of a row between two crossings that is in the clip rectangle. -/
def clipSpan (r : Rect) (y : ℤ) (c : ℤ × ℤ) : Option FillCall :=
  let y1 := if c.1 < r.left then r.left else c.1
  let y2 := if c.2 > r.right then r.right else c.2
  if y1 ≤ y2 then some ⟨y1, y, y2 - y1 + 1⟩ else none

/-- How a run ends: `crashed` where a null pointer is used, `running` if it takes more steps. -/
inductive Ending
  | returned (result : ℤ) | crashed | running
  deriving DecidableEq, Repr

/-- What a call does. -/
structure Outcome where
  reads : List ℤ
  fills : List FillCall
  ending : Ending
  deriving DecidableEq, Repr

/-- The loop over the scanlines; its counter is an `int16`. -/
def scanLoop (line : ℤ → Line) (cliprect : Option Rect) (maxy : ℤ) : ℕ → ℤ → Outcome
  | 0, _ => ⟨[], [], .running⟩
  | fuel + 1, y =>
    if y ≤ maxy then
      match cliprect with
      -- `cliprect[0]` is read whether there is one or not
      | none => ⟨(line y).reads, [], .crashed⟩
      | some r =>
        let rest := scanLoop line cliprect maxy fuel (int16 (y + 1))
        ⟨(line y).reads ++ rest.reads,
          (pairUp (exchangeSort (line y).crossing)).filterMap (clipSpan r y) ++ rest.fills,
          rest.ending⟩
    else ⟨[], [], .returned 1⟩

namespace PolyArrays

variable (a : PolyArrays)

/-- The points without the last one, if it closes the outline. -/
def corners : ℕ := if a.moves = 0 ∧ a.p 0 = a.p (a.n - 1) then a.n - 1 else a.n

/-- The position of the last move, and the positions read to find it. -/
def lastMove : ℤ × List ℤ :=
  if a.moves = 0 then (0, [])
  else
    let moves : ℤ := a.moves - 1
    let moves' := if a.index moves = -4 then moves - 1 else moves
    (if a.index moves' = -2 then moves' - 1 else moves', [moves, moves'])

/-- The top. -/
def miny : ℤ :=
  (List.range' 1 (a.corners - 1)).foldl (fun v (i : ℕ) => if (a.p i).2 < v then (a.p i).2 else v)
    (a.p 0).2

/-- The bottom. -/
def maxy : ℤ :=
  (List.range' 1 (a.corners - 1)).foldl (fun v (i : ℕ) => if (a.p i).2 > v then (a.p i).2 else v)
    (a.p 0).2

/-- The first row. -/
def clippedMin (cliprect : Option Rect) : ℤ :=
  match cliprect with
  | none => a.miny
  | some r => if a.miny < r.top then r.top else a.miny

/-- The last row. -/
def clippedMax (cliprect : Option Rect) : ℤ :=
  match cliprect with
  | none => a.maxy
  | some r => if a.maxy > r.bottom then r.bottom else a.maxy

/-- The crossings of a row. -/
def line (y : ℤ) : Line :=
  if a.moves = 0 then ⟨closedLoop a.p y a.corners 0 (a.p (a.corners - 1)), []⟩
  else
    let move_n := a.lastMove.1
    let rest := movedLoop a.p a.index y (a.corners - 1) 1 (a.p 0) move_n
      ((a.index move_n + 4).tdiv 2)
    ⟨rest.crossing, move_n :: rest.reads⟩

/-- `fillPoly` with its arrays. -/
def fill (cliprect : Option Rect) (fuel : ℕ) : Outcome :=
  if a.n = 0 then ⟨[], [], .returned 1⟩
  else
    let rest := scanLoop a.line cliprect (a.clippedMax cliprect) fuel
      (int16 (a.clippedMin cliprect))
    { rest with reads := a.lastMove.2 ++ rest.reads }

end PolyArrays

namespace Reads

variable (m : Reads)

theorem toInt_mem (b : U16) : -0x8000 ≤ b.toInt ∧ b.toInt < 0x8000 := by
  have h1 := b.le_toInt
  have h2 := b.toInt_lt
  exact ⟨h1, h2⟩

theorem word_mem (addr : U32) : -0x8000 ≤ m.word addr ∧ m.word addr < 0x8000 := toInt_mem _

/-- The arrays as they are read.  `stray` is what lies around the index array. -/
def polyArrays (stray : ℤ → ℤ) (points_addr : U32) (n : ℕ) (index_addr : U32) (moves : ℕ) :
    PolyArrays where
  p i := m.point points_addr i.toNat
  n := n
  index i := if 0 ≤ i ∧ i < moves then m.word (index_addr + BitVec.ofInt 32 (2 * i)) else stray i
  moves := moves
  x_mem _ := m.word_mem _
  y_mem _ := m.word_mem _

end Reads

variable (m : Reads) (stray : ℤ → ℤ) (fuel : ℕ) (vwk points_addr : U32)

/-- `fillPoly` for a clip rectangle that has been read. -/
def fillPolyIn (n : ℕ) (index_addr : U32) (moves : ℕ) (cliprect : Option Rect) : Outcome :=
  if vwk.getLsbD 0 then ⟨[], [], .returned (-1)⟩
  else (m.polyArrays stray points_addr n index_addr moves).fill cliprect fuel

/-- Fills a polygon. -/
def fillPoly (n : ℕ) (index_addr : U32) (moves : ℕ) (clip : U32) : Outcome :=
  fillPolyIn m stray fuel vwk points_addr n index_addr moves (m.clipArray clip)

/-! ## Crossings -/

/-- An edge of the outline. -/
abbrev Edge : Type := (ℤ × ℤ) × (ℤ × ℤ)

/-- A scanline crosses an edge from its upper end on, but not at its lower end. -/
def Crosses (y : ℤ) (e : Edge) : Prop := min e.1.2 e.2.2 ≤ y ∧ y < max e.1.2 e.2.2
deriving Decidable

/-- Where it crosses it: the distance from the upper end is truncated. -/
def intersectX (y : ℤ) (e : Edge) : ℤ :=
  if e.1.2 < e.2.2 then e.1.1 + ((y - e.1.2) * (e.2.1 - e.1.1)).tdiv (e.2.2 - e.1.2)
  else e.2.1 + ((y - e.2.2) * (e.1.1 - e.2.1)).tdiv (e.1.2 - e.2.2)

theorem tdiv_between {k h d : ℤ} (hk : 0 ≤ k) (hkh : k < h) :
    min 0 d ≤ (k * d).tdiv h ∧ (k * d).tdiv h ≤ max 0 d := by
  have hpart : ∀ e : ℤ, 0 ≤ e → 0 ≤ (k * e).tdiv h ∧ (k * e).tdiv h ≤ e := by
    intro e he
    rw [Int.tdiv_eq_ediv_of_nonneg (mul_nonneg hk he)]
    refine ⟨Int.ediv_nonneg (mul_nonneg hk he) (by omega), Int.ediv_le_of_le_mul (by omega) ?_⟩
    nlinarith
  rcases le_total 0 d with hd | hd
  · have := hpart d hd
    omega
  · have := hpart (-d) (by omega)
    rw [mul_neg, Int.neg_tdiv] at this
    omega

theorem crossing_exact {x1 y1 x2 y2 y : ℤ} (hx1 : -0x8000 ≤ x1 ∧ x1 < 0x8000)
    (hx2 : -0x8000 ≤ x2 ∧ x2 < 0x8000)
    (hy1 : -0x8000 ≤ y1) (hy2 : y2 < 0x8000) (h1 : y1 ≤ y) (h2 : y < y2) :
    int16 (smulDiv (y - y1) (x2 - x1) (y2 - y1) + x1) =
      x1 + ((y - y1) * (x2 - x1)).tdiv (y2 - y1) := by
  have hlong : long ((y - y1) * (x2 - x1)) = (y - y1) * (x2 - x1) := by
    have hup : (y - y1) * (x2 - x1) ≤ 0x10000 * 0x10000 := by nlinarith
    have hlow : -(0x10000 * 0x10000) ≤ (y - y1) * (x2 - x1) := by nlinarith
    unfold long
    omega
  have hpart : min 0 (x2 - x1) ≤ ((y - y1) * (x2 - x1)).tdiv (y2 - y1) ∧
      ((y - y1) * (x2 - x1)).tdiv (y2 - y1) ≤ max 0 (x2 - x1) := tdiv_between (by omega) (by omega)
  rw [smulDiv, hlong]
  unfold int16
  omega

section
variable {a b : ℤ × ℤ} {y : ℤ}

theorem crosses_of_lt (h : a.2 < b.2) : Crosses y (a, b) ↔ a.2 ≤ y ∧ y < b.2 := by
  rw [Crosses, min_eq_left h.le, max_eq_right h.le]

theorem crosses_of_gt (h : b.2 < a.2) : Crosses y (a, b) ↔ b.2 ≤ y ∧ y < a.2 := by
  rw [Crosses, min_eq_right h.le, max_eq_left h.le]

theorem not_crosses_of_eq (h : a.2 = b.2) : ¬ Crosses y (a, b) := by
  rw [Crosses, h, min_self, max_self]
  omega

theorem edgeCrossing_eq (ha : -0x8000 ≤ a.1 ∧ a.1 < 0x8000) (ha' : -0x8000 ≤ a.2 ∧ a.2 < 0x8000)
    (hb : -0x8000 ≤ b.1 ∧ b.1 < 0x8000) (hb' : -0x8000 ≤ b.2 ∧ b.2 < 0x8000) :
    edgeCrossing y a b = if Crosses y (a, b) then [intersectX y (a, b)] else [] := by
  rw [edgeCrossing, intersectX]
  rcases lt_trichotomy a.2 b.2 with h | h | h
  · rw [if_pos h, if_pos h]
    by_cases hy : a.2 ≤ y ∧ y < b.2
    · rw [if_pos hy, if_pos ((crosses_of_lt h).2 hy), crossing_exact ha hb ha'.1 hb'.2 hy.1 hy.2]
    · rw [if_neg hy, if_neg (mt (crosses_of_lt h).1 hy)]
  · rw [if_neg (by omega), if_neg (by omega), if_neg (not_crosses_of_eq h)]
  · rw [if_neg (by omega), if_pos h, if_neg (by omega : ¬ a.2 < b.2)]
    by_cases hy : b.2 ≤ y ∧ y < a.2
    · rw [if_pos hy, if_pos ((crosses_of_gt h).2 hy), crossing_exact hb ha hb'.1 ha'.2 hy.1 hy.2]
    · rw [if_neg hy, if_neg (mt (crosses_of_gt h).1 hy)]

theorem length_edgeCrossing :
    (edgeCrossing y a b).length = if decide (a.2 ≤ y) = decide (b.2 ≤ y) then 0 else 1 := by
  unfold edgeCrossing
  split_ifs <;> simp_all <;> omega

end

namespace PolyArrays

variable {a : PolyArrays} {y : ℤ}

/-- The edges of the closed outline. -/
def outline (a : PolyArrays) : List Edge :=
  (List.range a.n).map fun i : ℕ => (a.p i, a.p ((i + 1) % a.n : ℕ))

theorem length_closedLoop (count i : ℕ) (prev : ℤ × ℤ) : (closedLoop a.p y count i prev).length =
      changes (decide (prev.2 ≤ y)) ((range' i count).map fun j : ℕ => decide ((a.p j).2 ≤ y)) := by
  induction count generalizing i prev with
  | zero => rfl
  | succ count ih =>
    rw [closedLoop, length_append, length_edgeCrossing, ih, range'_succ, map_cons, changes]

theorem even_crossings (hmoves : a.moves = 0) (y : ℤ) : Even (a.line y).crossing.length := by
  rw [line, if_pos hmoves, length_closedLoop]
  rcases Nat.eq_zero_or_pos a.corners with h | h
  · simp [h, changes]
  · refine even_changes ?_
    obtain ⟨k, hk⟩ : ∃ k, a.corners = k + 1 := ⟨a.corners - 1, by omega⟩
    rw [hk, range'_concat]
    simp

/-- The edges from the first `k + 1` points to the next. -/
def chain (a : PolyArrays) (k : ℕ) : List Edge :=
  (List.range k).map fun i : ℕ => (a.p i, a.p (i + 1 : ℕ))

theorem chain_succ (k : ℕ) : a.chain (k + 1) = a.chain k ++ [(a.p k, a.p (k + 1 : ℕ))] := by
  simp [chain, range_succ]

theorem outline_eq {k : ℕ} (hn : a.n = k + 1) : a.outline = a.chain k ++ [(a.p k, a.p 0)] := by
  rw [outline, hn, range_succ, map_append, chain]
  congr 1
  · refine map_congr_left fun i hi => ?_
    rw [Nat.mod_eq_of_lt (by have := List.mem_range.1 hi; omega)]
  · simp

/-- What the edges of a list add. -/
def crossingsOf (y : ℤ) (es : List Edge) : List ℤ :=
  (es.filter fun e => Crosses y e).map (intersectX y)

theorem crossingsOf_append (es fs : List Edge) :
    crossingsOf y (es ++ fs) = crossingsOf y es ++ crossingsOf y fs := by
  simp [crossingsOf]

theorem crossingsOf_degenerate (i : ℤ) : crossingsOf y [(a.p i, a.p i)] = [] := by
  simp [crossingsOf, not_crosses_of_eq]

theorem edgeCrossing_p (y i j : ℤ) :
    edgeCrossing y (a.p i) (a.p j) = crossingsOf y [(a.p i, a.p j)] := by
  rw [edgeCrossing_eq (a.x_mem i) (a.y_mem i) (a.x_mem j) (a.y_mem j), crossingsOf]
  split_ifs with h <;> simp [h]

theorem closedLoop_eq (count i : ℕ) : closedLoop a.p y count (i + 1) (a.p i) =
      crossingsOf y ((range' i count).map fun j : ℕ => (a.p j, a.p (j + 1 : ℕ))) := by
  induction count generalizing i with
  | zero => rfl
  | succ count ih =>
    rw [closedLoop, ih (i + 1), edgeCrossing_p, ← crossingsOf_append, range'_succ]
    rfl

theorem closedLoop_chain (k : ℕ) (j : ℤ) :
    closedLoop a.p y (k + 1) 0 (a.p j) = crossingsOf y ((a.p j, a.p 0) :: a.chain k) := by
  have hrest := closedLoop_eq (a := a) (y := y) k 0
  rw [← range_eq_range'] at hrest
  rw [closedLoop]
  rw [hrest, edgeCrossing_p, ← crossingsOf_append]
  rfl

theorem crossing_perm (hmoves : a.moves = 0) (y : ℤ) :
    (a.line y).crossing.Perm (crossingsOf y a.outline) := by
  rcases Nat.eq_zero_or_pos a.n with hn | hn
  · have hcorners : a.corners = 0 := by rw [corners, hn, ite_self]
    simp [line, hmoves, hcorners, closedLoop, outline, hn, crossingsOf]
  obtain ⟨k, hk⟩ : ∃ k, a.n = k + 1 := ⟨a.n - 1, by omega⟩
  have hlast : (a.n : ℤ) - 1 = k := by omega
  have hperm : ∀ (k : ℕ) (j : ℤ), (crossingsOf y ((a.p j, a.p 0) :: a.chain k)).Perm
      (crossingsOf y (a.chain k ++ [(a.p j, a.p 0)])) := by
    intro k j
    exact (perm_append_singleton _ _).symm.filter _ |>.map _
  rw [line, if_pos hmoves, outline_eq hk]
  by_cases hclosed : a.p 0 = a.p k
  · -- the last point is left out, and with it an edge from the first point to itself
    have hcorners : a.corners = k := by rw [corners, hlast, if_pos ⟨hmoves, hclosed⟩, hk]; rfl
    have hend : crossingsOf y [(a.p k, a.p 0)] = [] := by rw [← hclosed, crossingsOf_degenerate]
    rw [hcorners, crossingsOf_append, hend, append_nil]
    cases k with
    | zero => exact .refl _
    | succ k =>
      rw [closedLoop_chain, chain_succ, ← hclosed]
      have hprev : ((k + 1 : ℕ) : ℤ) - 1 = k := by omega
      rw [hprev]
      exact hperm k k
  · have hcorners : a.corners = k + 1 := by rw [corners, hlast, if_neg fun h => hclosed h.2, hk]
    have hprev : ((k + 1 : ℕ) : ℤ) - 1 = k := by omega
    rw [hcorners, closedLoop_chain, hprev]
    exact hperm k k

/-! ## Extremes -/

/-- Every point is the first one or among those that the loops look at. -/
theorem y_corner {i : ℕ} (hi : i < a.n) :
    ∃ j : ℕ, (j = 0 ∨ j ∈ range' 1 (a.corners - 1)) ∧ a.p j = a.p i := by
  unfold corners
  split_ifs with h
  · rcases (by omega : i = a.n - 1 ∨ i < a.n - 1) with rfl | hlt
    · refine ⟨0, .inl rfl, ?_⟩
      rw [show ((a.n - 1 : ℕ) : ℤ) = a.n - 1 by omega]
      exact h.2
    · exact ⟨i, by rw [mem_range'_1]; omega, rfl⟩
  · exact ⟨i, by rw [mem_range'_1]; omega, rfl⟩

theorem corner_lt {i : ℕ} (hi : i ∈ range' 1 (a.corners - 1)) : i < a.n := by
  have h := List.mem_range'_1.1 hi
  unfold corners at h
  split_ifs at h <;> omega

/-- What the loops find is the least row of a point, in whichever order `g` puts the rows. -/
theorem least_corner {α : Type} [LinearOrder α] (g : ℤ → α) (hn : a.n ≠ 0) {v : α}
    (hv : v = (range' 1 (a.corners - 1)).foldl
      (fun v (i : ℕ) => if g (a.p i).2 < v then g (a.p i).2 else v) (g (a.p 0).2)) :
    (∀ i < a.n, v ≤ g (a.p i).2) ∧ ∃ i < a.n, v = g (a.p i).2 := by
  obtain ⟨⟨hle, hall⟩, heq⟩ :=
    foldl_least (fun i : ℕ => g (a.p i).2) (range' 1 (a.corners - 1)) (g (a.p 0).2)
  rw [← hv] at hle hall heq
  refine ⟨fun i hi => ?_, ?_⟩
  · obtain ⟨j, hj | hj, hp⟩ := y_corner hi
    · rw [← hp, hj]
      exact hle
    · rw [← hp]
      exact hall j hj
  · rcases heq with heq | ⟨j, hj, heq⟩
    · exact ⟨0, by omega, heq⟩
    · exact ⟨j, corner_lt hj, heq⟩

theorem miny_spec (hn : a.n ≠ 0) :
    (∀ i < a.n, a.miny ≤ (a.p i).2) ∧ ∃ i < a.n, a.miny = (a.p i).2 :=
  least_corner id hn rfl

theorem maxy_spec (hn : a.n ≠ 0) :
    (∀ i < a.n, (a.p i).2 ≤ a.maxy) ∧ ∃ i < a.n, a.maxy = (a.p i).2 :=
  least_corner OrderDual.toDual hn rfl

theorem miny_mem (hn : a.n ≠ 0) : -0x8000 ≤ a.miny ∧ a.miny < 0x8000 := by
  obtain ⟨i, -, hi⟩ := (miny_spec hn).2
  rw [hi]
  exact a.y_mem i

theorem maxy_mem (hn : a.n ≠ 0) : -0x8000 ≤ a.maxy ∧ a.maxy < 0x8000 := by
  obtain ⟨i, -, hi⟩ := (maxy_spec hn).2
  rw [hi]
  exact a.y_mem i

theorem crossed_rows {x : ℤ} (h : x ∈ crossingsOf y a.outline) : a.miny ≤ y ∧ y ≤ a.maxy := by
  simp only [crossingsOf, outline, mem_map, mem_filter, decide_eq_true_eq, mem_range] at h
  obtain ⟨e, ⟨⟨i, hi, rfl⟩, hcross⟩, -⟩ := h
  have hn : a.n ≠ 0 := by omega
  have hnext : (i + 1) % a.n < a.n := Nat.mod_lt _ (by omega)
  have h1 := (miny_spec hn).1 i hi
  have h2 := (miny_spec hn).1 _ hnext
  have h3 := (maxy_spec hn).1 i hi
  have h4 := (maxy_spec hn).1 _ hnext
  unfold Crosses at hcross
  dsimp only at hcross
  omega

end PolyArrays

/-! ## Scanlines -/

/-- A pixel that one of the calls covers. -/
def Covered (fills : List FillCall) (x y : ℤ) : Prop :=
  ∃ c ∈ fills, c.y = y ∧ c.x ≤ x ∧ x < c.x + c.w

/-- Between crossing `2 i` and crossing `2 i + 1`. -/
def Between (crossing : List ℤ) (x : ℤ) : Prop :=
  ∃ (i : ℕ) (c c' : ℤ), crossing[2 * i]? = some c ∧ crossing[2 * i + 1]? = some c' ∧ c ≤ x ∧ x ≤ c'

section
variable {line : ℤ → Line} {r : Rect} {maxy : ℤ}

/-- The calls for one scanline. -/
def rowFills (line : ℤ → Line) (r : Rect) (y : ℤ) : List FillCall :=
  (pairUp (exchangeSort (line y).crossing)).filterMap (clipSpan r y)

theorem mem_rowFills {y : ℤ} {c : FillCall} (h : c ∈ rowFills line r y) :
    c.y = y ∧ r.left ≤ c.x ∧ 0 < c.w ∧ c.x + c.w - 1 ≤ r.right := by
  obtain ⟨d, -, hd⟩ := List.mem_filterMap.1 h
  simp only [clipSpan, Option.ite_none_right_eq_some, Option.some.injEq] at hd
  obtain ⟨hle, rfl⟩ := hd
  dsimp only
  split_ifs at hle ⊢ <;> omega

theorem covered_rowFills {x y y' : ℤ} : Covered (rowFills line r y') x y ↔
      y' = y ∧ r.left ≤ x ∧ x ≤ r.right ∧ Between (exchangeSort (line y').crossing) x := by
  constructor
  · rintro ⟨c, hc, rfl, h1, h2⟩
    obtain ⟨d, hd, hspan⟩ := List.mem_filterMap.1 hc
    obtain ⟨i, hi, hi'⟩ := mem_pairUp.1 hd
    simp only [clipSpan, Option.ite_none_right_eq_some, Option.some.injEq] at hspan
    obtain ⟨hle, rfl⟩ := hspan
    dsimp only at h1 h2 ⊢
    refine ⟨rfl, ?_, ?_, i, d.1, d.2, hi, hi', ?_, ?_⟩ <;> split_ifs at h1 h2 <;> omega
  · rintro ⟨rfl, hl, hr, i, c, c', hi, hi', h1, h2⟩
    have hspan : clipSpan r y' (c, c') = some ⟨if c < r.left then r.left else c, y',
        (if c' > r.right then r.right else c') - (if c < r.left then r.left else c) + 1⟩ := by
      refine if_pos ?_
      split_ifs <;> omega
    refine ⟨_, List.mem_filterMap.2 ⟨(c, c'), mem_pairUp.2 ⟨i, hi, hi'⟩, hspan⟩, rfl, ?_, ?_⟩
    · dsimp only
      split_ifs <;> omega
    · dsimp only
      split_ifs <;> omega

theorem scanLoop_returns (hmax : maxy < 0x7fff) (k : ℕ) :
    ∀ (fuel : ℕ) (y : ℤ), -0x8000 ≤ y → (maxy + 1 - y).toNat = k → k < fuel →
      scanLoop line (some r) maxy fuel y = ⟨(range k).flatMap fun i : ℕ => (line (y + i)).reads,
          (range k).flatMap fun i : ℕ => rowFills line r (y + i), .returned 1⟩ := by
  induction k with
  | zero =>
    intro fuel y hy hk hfuel
    obtain ⟨fuel, rfl⟩ : ∃ f, fuel = f + 1 := ⟨fuel - 1, by omega⟩
    rw [scanLoop, if_neg (by omega)]
    rfl
  | succ k ih =>
    intro fuel y hy hk hfuel
    obtain ⟨fuel, rfl⟩ : ∃ f, fuel = f + 1 := ⟨fuel - 1, by omega⟩
    have hnext : int16 (y + 1) = y + 1 := int16_of_mem (by omega) (by omega)
    rw [scanLoop, if_pos (by omega), hnext, ih fuel (y + 1) (by omega) (by omega) (by omega)]
    have hshift : ∀ i : ℕ, y + 1 + (i : ℤ) = y + ((i + 1 : ℕ) : ℤ) := fun i => by push_cast; ring
    simp only [hshift, range_succ_eq_map, flatMap_cons, flatMap_map, Nat.cast_zero, add_zero]
    rfl

theorem scanLoop_runs (fuel : ℕ) (y : ℤ) (hy : y ≤ 0x7fff) :
    (scanLoop line (some r) 0x7fff fuel y).ending = .running := by
  induction fuel generalizing y with
  | zero => rfl
  | succ fuel ih =>
    have hb := int16_bounds (y + 1)
    rw [scanLoop, if_pos hy]
    exact ih _ (by omega)

end

/-! ## Filled polygons -/

theorem Reads.clipArray_mem {m : Reads} {clip : U32} {r : Rect} (h : m.clipArray clip = some r) :
    (-0x8000 ≤ r.top ∧ r.top < 0x8000) ∧ (-0x8000 ≤ r.bottom ∧ r.bottom < 0x8000) := by
  simp only [Reads.clipArray, Option.ite_none_left_eq_some, Option.some.injEq] at h
  obtain ⟨-, rfl⟩ := h
  exact ⟨toInt_mem _, toInt_mem _⟩

/-- The polygon is filled: an even number of crossings on every scanline, all of them exact, and the
    pixels of the clip rectangle between them. -/
structure Filled (a : PolyArrays) (r : Rect) (o : Outcome) : Prop where
  returns : o.ending = .returned 1
  even : ∀ y, a.clippedMin (some r) ≤ y → y ≤ a.clippedMax (some r) →
    Even (a.line y).crossing.length
  exact : ∀ y, a.clippedMin (some r) ≤ y → y ≤ a.clippedMax (some r) →
    (a.line y).crossing.Perm (PolyArrays.crossingsOf y a.outline)
  pixels : ∀ x y, Covered o.fills x y ↔
    r.Contains (x, y) ∧ Between ((PolyArrays.crossingsOf y a.outline).insertionSort (· ≤ ·)) x
  drawn : ∀ (S : Surface) (areaPattern : Option (ℕ → U16)), S.pitch < 0x8000 →
    (∀ p, r.Contains p → S.Inside p.1 p.2) → ∀ c ∈ o.fills, boxDots S c.x c.y c.w 1 areaPattern =
      some (path c.w.toNat (fun j => S.offset (c.x + j) c.y) fun j => patternBit
        (patternLine areaPattern c.y) (c.x + j))

namespace PolyArrays

variable {a : PolyArrays} {r : Rect}

theorem clippedMin_mem (hn : a.n ≠ 0) (htop : -0x8000 ≤ r.top ∧ r.top < 0x8000) :
    -0x8000 ≤ a.clippedMin (some r) ∧ a.clippedMin (some r) < 0x8000 := by
  have hmin := miny_mem hn
  simp only [clippedMin]
  split_ifs <;> omega

theorem fill_eq (hn : a.n ≠ 0) (htop : -0x8000 ≤ r.top ∧ r.top < 0x8000)
    (hto : a.clippedMax (some r) < 0x7fff)
    {fuel : ℕ} (hfuel : 0x10000 < fuel) : a.fill (some r) fuel =
      let k := (a.clippedMax (some r) + 1 - a.clippedMin (some r)).toNat
      ⟨a.lastMove.2 ++ (range k).flatMap fun i : ℕ => (a.line (a.clippedMin (some r) + i)).reads,
        (range k).flatMap fun i : ℕ => rowFills a.line r (a.clippedMin (some r) + i),
        .returned 1⟩ := by
  have hfrom := clippedMin_mem hn htop
  rw [fill, if_neg hn, int16_of_mem hfrom.1 hfrom.2,
    scanLoop_returns hto _ fuel _ hfrom.1 rfl (by omega)]

theorem mem_fills {k : ℕ} {c : FillCall} {y₀ y₁ : ℤ} (hk : k = (y₁ + 1 - y₀).toNat)
    (hc : c ∈ (range k).flatMap fun i : ℕ => rowFills a.line r (y₀ + i)) :
    c ∈ rowFills a.line r c.y ∧ y₀ ≤ c.y ∧ c.y ≤ y₁ := by
  obtain ⟨i, hi, hc⟩ := List.mem_flatMap.1 hc
  have hy := (mem_rowFills hc).1
  have hi' := List.mem_range.1 hi
  rw [hy]
  exact ⟨hc, by omega, by omega⟩

theorem filled_of_empty (hn : a.n = 0) (hmoves : a.moves = 0) (fuel : ℕ) :
    Filled a r (a.fill (some r) fuel) := by
  have hfill : a.fill (some r) fuel = ⟨[], [], .returned 1⟩ := if_pos hn
  have hnone : ∀ y, crossingsOf y a.outline = [] := fun y => by simp [crossingsOf, outline, hn]
  rw [hfill]
  refine ⟨rfl, fun y _ _ => even_crossings hmoves y, fun y _ _ => crossing_perm hmoves y,
    fun x y => ?_, ?_⟩
  · simp [Covered, Between, hnone]
  · simp

/-- A polygon without an index list is filled, once the fuel is enough for every scanline. -/
theorem filled (hn : a.n ≠ 0) (hmoves : a.moves = 0) (htop : -0x8000 ≤ r.top ∧ r.top < 0x8000)
    (hbottom : r.bottom < 0x7fff) {fuel : ℕ} (hfuel : 0x10000 < fuel) :
    Filled a r (a.fill (some r) fuel) := by
  have hto : a.clippedMax (some r) < 0x7fff := by
    simp only [clippedMax]
    split_ifs <;> omega
  rw [fill_eq hn htop hto hfuel]
  have hlow : r.top ≤ a.clippedMin (some r) ∧ a.miny ≤ a.clippedMin (some r) ∧
      ∀ y, r.top ≤ y → a.miny ≤ y → a.clippedMin (some r) ≤ y := by
    simp only [clippedMin]
    split_ifs <;> exact ⟨by omega, by omega, fun y _ _ => by omega⟩
  have hhigh : a.clippedMax (some r) ≤ r.bottom ∧ ∀ y, y ≤ r.bottom → y ≤ a.maxy →
      y ≤ a.clippedMax (some r) := by
    simp only [clippedMax]
    split_ifs <;> exact ⟨by omega, fun y _ _ => by omega⟩
  refine ⟨rfl, fun y _ _ => even_crossings hmoves y, fun y _ _ => crossing_perm hmoves y,
    fun x y => ?_, ?_⟩
  · have hsort : exchangeSort (a.line y).crossing =
      (crossingsOf y a.outline).insertionSort (· ≤ ·) :=
      exchangeSort_eq (crossing_perm hmoves y)
    rw [← hsort]
    constructor
    · rintro ⟨c, hc, rfl, h1, h2⟩
      obtain ⟨hrow, hy1, hy2⟩ := mem_fills rfl hc
      obtain ⟨-, hl, hr, hb⟩ := covered_rowFills.1 ⟨c, hrow, rfl, h1, h2⟩
      exact ⟨⟨hl, hr, by dsimp only; omega, by dsimp only; omega⟩, hb⟩
    · rintro ⟨⟨hl, hr, ht, hbot⟩, hb⟩
      obtain ⟨i, c, c', hi, -⟩ := id hb
      -- the scanline is crossed, so it is one of those that are filled
      have hmem : c ∈ crossingsOf y a.outline :=
        (crossing_perm hmoves y).subset ((exchangeSort_perm _).subset (mem_of_getElem? hi))
      have hrows := crossed_rows hmem
      have h1 := hlow.2.2 y ht hrows.1
      have h2 := hhigh.2 y hbot hrows.2
      obtain ⟨s, hs, hcov⟩ := covered_rowFills.2 ⟨rfl, hl, hr, hb⟩
      refine ⟨s, List.mem_flatMap.2
        ⟨(y - a.clippedMin (some r)).toNat, List.mem_range.2 (by omega), ?_⟩, hcov⟩
      rw [show a.clippedMin (some r) + ((y - a.clippedMin (some r)).toNat : ℤ) = y by omega]
      exact hs
  · intro S areaPattern hp hin c hc
    obtain ⟨hrow, hy1, hy2⟩ := mem_fills rfl hc
    obtain ⟨-, hl, hw, hr⟩ := mem_rowFills hrow
    have hfirst : S.Inside c.x c.y :=
      hin (c.x, c.y) ⟨hl, by dsimp only; omega, by dsimp only; omega, by dsimp only; omega⟩
    have hlast : S.Inside (c.x + c.w - 1) c.y :=
      hin (c.x + c.w - 1, c.y) ⟨by dsimp only; omega,
        hr, by dsimp only; omega, by dsimp only; omega⟩
    have hx := hfirst.1
    have hx' := hlast.2.1
    rw [boxDots_eq hp hw.le (by omega) (by omega) (by omega)]
    simp [grid, path, Function.comp_def]

end PolyArrays

/-- A polygon without an index list is filled between its crossings, in the pixels of the clip
    rectangle and in no others. -/
theorem polygon_filled (n : ℕ) (index_addr clip : U32) (r : Rect) (hvwk : vwk.getLsbD 0 = false)
    (hclip : m.clipArray clip = some r) (hbottom : r.bottom < 0x7fff) (hfuel : 0x10000 < fuel) :
    Filled (m.polyArrays stray points_addr n index_addr 0) r
      (fillPoly m stray fuel vwk points_addr n index_addr 0 clip) := by
  have hmem := Reads.clipArray_mem hclip
  rw [fillPoly, fillPolyIn, if_neg (by rw [hvwk]; decide), hclip]
  by_cases hn : n = 0
  · exact PolyArrays.filled_of_empty hn rfl fuel
  · exact PolyArrays.filled hn rfl hmem.1 hbottom hfuel

/-- A triangle at 0x1000, and the clip rectangle (2,2)-(20,20) at 0x2000. -/
def triangle : Reads where
  readInt16 addr := if addr = 0x1004 then 10 else if addr = 0x100a then 10 else 0
  readInt32 addr := if addr = 0x2000 ∨ addr = 0x2004 then 2 else 20

theorem triangle_filled : Filled (triangle.polyArrays (fun _ => 0) 0x1000 3 0 0) ⟨2, 2, 20, 20⟩
    (fillPoly triangle (fun _ => 0) 0x10001 0 0x1000 3 0 0 0x2000) :=
  polygon_filled triangle (fun _ => 0) 0x10001 0 0x1000 3 0 0x2000 ⟨2, 2, 20, 20⟩ rfl (by decide)
    (by decide) (by decide)

/-! ## Runs that return -/

theorem movedLoop_reads {p : ℤ → ℤ × ℤ} {index : ℤ → ℤ} {y : ℤ} (count i : ℕ) (prev : ℤ × ℤ)
    (move_n movepnt : ℤ) :
    ∀ j ∈ (movedLoop p index y count i prev move_n movepnt).reads, 0 ≤ j ∧ j < move_n := by
  induction count generalizing i prev move_n movepnt with
  | zero => simp [movedLoop]
  | succ count ih =>
    intro j hj
    rw [movedLoop] at hj
    split_ifs at hj with h1 h2
    · rcases List.mem_cons.1 hj with rfl | hj
      · omega
      · have := ih _ _ _ _ j hj
        omega
    · have := ih _ _ _ _ j hj
      omega
    · exact ih _ _ _ _ j hj

theorem scanLoop_reads {line : ℤ → Line} {r : Rect} {maxy : ℤ} (P : ℤ → Prop)
    (hline : ∀ y, y ≤ maxy → ∀ j ∈ (line y).reads, P j) (fuel : ℕ) (y : ℤ) :
    ∀ j ∈ (scanLoop line (some r) maxy fuel y).reads, P j := by
  induction fuel generalizing y with
  | zero => simp [scanLoop]
  | succ fuel ih =>
    intro j hj
    rw [scanLoop] at hj
    split_ifs at hj with h
    · rcases List.mem_append.1 hj with hj | hj
      · exact hline y h j hj
      · exact ih _ j hj
    · simp at hj

/-- How many entries are left without the sentinels. -/
def stripCount (index : ℤ → ℤ) (k : ℕ) : ℕ :=
  let k' := if k ≠ 0 ∧ index ((k : ℤ) - 1) = -4 then k - 1 else k
  if k' ≠ 0 ∧ index ((k' : ℤ) - 1) = -2 then k' - 1 else k'

theorem stripSentinels_map (index : ℤ → ℤ) (k : ℕ) :
    stripSentinels ((range k).map fun i : ℕ => index i) =
      (range (stripCount index k)).map fun i : ℕ => index i := by
  have hlast : ∀ (k : ℕ) (v : ℤ), ((range k).map fun i : ℕ => index i).getLast? = some v ↔
      k ≠ 0 ∧ index ((k : ℤ) - 1) = v := by
    intro k v
    cases k with
    | zero => simp
    | succ k => simp [range_succ]
  have hdrop : ∀ k : ℕ, ((range k).map fun i : ℕ => index i).dropLast =
      (range (k - 1)).map fun i : ℕ => index i := by
    intro k
    cases k with
    | zero => rfl
    | succ k => simp [range_succ]
  have hstep : ∀ (k : ℕ) (v : ℤ),
      (if ((range k).map fun i : ℕ => index i).getLast? =
      some v then ((range k).map fun i : ℕ => index i).dropLast
        else (range k).map fun i : ℕ => index i) =
      (range (if k ≠ 0 ∧ index ((k : ℤ) - 1) = v then k - 1 else k)).map fun i : ℕ => index i := by
    intro k v
    by_cases h : k ≠ 0 ∧ index ((k : ℤ) - 1) = v
    · rw [if_pos ((hlast k v).2 h), if_pos h, hdrop]
    · rw [if_neg (mt (hlast k v).1 h), if_neg h]
  rw [stripSentinels, stripCount, hstep, hstep]

namespace PolyArrays

variable {a : PolyArrays} {r : Rect}

/-- The index list. -/
def entries (a : PolyArrays) : List ℤ := (List.range a.moves).map fun i : ℕ => a.index i

/-- The scanlines between the extremes are all outside of the rectangle. -/
def Outside (a : PolyArrays) (r : Rect) : Prop :=
  r.bottom < r.top ∨ (∀ i < a.n, r.bottom < (a.p i).2) ∨ ∀ i < a.n, (a.p i).2 < r.top

theorem outside_iff (hn : a.n ≠ 0) :
    a.Outside r ↔ a.clippedMax (some r) < a.clippedMin (some r) := by
  obtain ⟨hmin, i, hi, hmin'⟩ := miny_spec hn
  obtain ⟨hmax, j, hj, hmax'⟩ := maxy_spec hn
  have hle : a.miny ≤ a.maxy := (hmin i hi).trans (hmax i hi)
  have hclip : a.clippedMax (some r) < a.clippedMin (some r) ↔ r.bottom < r.top ∨
      r.bottom < a.miny ∨ a.maxy < r.top := by
    simp only [clippedMax, clippedMin]
    split_ifs <;> omega
  rw [hclip]
  refine or_congr_right (or_congr ⟨fun h => ?_, fun h k hk => h.trans_le (hmin k hk)⟩
    ⟨fun h => ?_, fun h k hk => (hmax k hk).trans_lt h⟩)
  · rw [hmin']
    exact h i hi
  · rw [hmax']
    exact h j hj

theorem lastMove_lt (h : a.moves ≠ 0) : a.lastMove.1 < a.moves := by
  rw [lastMove, if_neg h]
  dsimp only
  split_ifs <;> omega

theorem entries_eq_iff : a.entries = [-4] ↔ a.moves = 1 ∧ a.index 0 = -4 := by
  unfold entries
  rcases (by omega : a.moves = 0 ∨ a.moves = 1 ∨ 2 ≤ a.moves) with h | h | h
  · simp [h]
  · simp [h]
  · refine ⟨fun heq => ?_, fun heq => by omega⟩
    have hlen := congrArg List.length heq
    simp at hlen
    omega

/-- Unless the list is a single -4, the last move is the last entry that is no sentinel. -/
theorem lastMove_eq (h : a.moves ≠ 0) (h' : a.entries ≠ [-4]) :
    a.lastMove.1 = (stripSentinels a.entries).length - 1 ∧ ∀ j ∈ a.lastMove.2, 0 ≤ j ∧
    j < a.moves := by
  rw [ne_eq, entries_eq_iff] at h'
  have hone : a.moves = 1 → a.index ((a.moves : ℤ) - 1) ≠ -4 := by
    intro h1 h4
    refine h' ⟨h1, ?_⟩
    rwa [h1] at h4
  rw [entries, stripSentinels_map, length_map, length_range, lastMove, if_neg h, stripCount]
  by_cases h4 : a.index ((a.moves : ℤ) - 1) = -4
  · have h2 : 2 ≤ a.moves := by
      by_contra hlt
      exact hone (by omega) h4
    have hprev : ((a.moves - 1 : ℕ) : ℤ) = a.moves - 1 := by omega
    have hstrip : (if a.moves ≠ 0 ∧
      a.index ((a.moves : ℤ) - 1) = -4 then a.moves - 1 else a.moves) = a.moves - 1 :=
      if_pos ⟨h, h4⟩
    dsimp only
    rw [if_pos h4, hstrip, hprev]
    refine ⟨?_, by simp; omega⟩
    split_ifs <;> omega
  · have hstrip : (if a.moves ≠ 0 ∧
      a.index ((a.moves : ℤ) - 1) = -4 then a.moves - 1 else a.moves) = a.moves :=
      if_neg fun hand => h4 hand.2
    dsimp only
    refine ⟨?_, by simp; omega⟩
    split_ifs <;> omega

theorem line_reads (h : a.moves ≠ 0) (h0 : 0 ≤ a.lastMove.1) (y : ℤ) :
    ∀ j ∈ (a.line y).reads, 0 ≤ j ∧ j < a.moves := by
  have hlt := lastMove_lt h
  rw [line, if_neg h]
  intro j hj
  rcases List.mem_cons.1 hj with rfl | hj
  · exact ⟨h0, hlt⟩
  · have := movedLoop_reads _ _ _ _ _ j hj
    omega

/-- No read leaves the index array, except where all of it is stripped as sentinels. -/
theorem reads_iff (hn : a.n ≠ 0) (htop : -0x8000 ≤ r.top ∧ r.top < 0x8000) :
    (∀ fuel, ∀ j ∈ (a.fill (some r) fuel).reads, 0 ≤ j ∧ j < a.moves) ↔
      a.moves = 0 ∨ stripSentinels a.entries ≠ [] ∨ a.entries ≠ [-4] ∧ a.Outside r := by
  have hfrom := clippedMin_mem hn htop
  have hfill : ∀ fuel, (a.fill (some r) fuel).reads =
      a.lastMove.2 ++
        (scanLoop a.line (some r) (a.clippedMax (some r)) fuel (a.clippedMin (some r))).reads := by
    intro fuel
    rw [fill, if_neg hn, int16_of_mem hfrom.1 hfrom.2]
  simp only [hfill, mem_append]
  by_cases hm : a.moves = 0
  · refine ⟨fun _ => .inl hm, fun _ fuel j hj => ?_⟩
    rcases hj with hj | hj
    · simp [lastMove, hm] at hj
    · exact absurd hj (scanLoop_reads (fun _ => False) (fun y _ => by simp [line, hm]) fuel _ j)
  rw [or_iff_right hm]
  by_cases h4 : a.entries = [-4]
  · -- the entry before the first one is looked at
    have hstrip : stripSentinels a.entries = [] := by rw [h4]; rfl
    obtain ⟨hone, h0⟩ := entries_eq_iff.1 h4
    constructor
    · intro h
      have hbad := h 0 (-1) (.inl (by simp [lastMove, hone, h0]))
      omega
    · rintro (hs | ⟨hne, -⟩)
      · exact absurd hstrip hs
      · exact absurd h4 hne
  obtain ⟨hlast, hreads⟩ := lastMove_eq hm h4
  by_cases hs : stripSentinels a.entries = []
  · rw [hs, length_nil] at hlast
    simp only [hs, ne_eq, not_true_eq_false, false_or, h4, not_false_eq_true, true_and]
    rw [outside_iff hn]
    constructor
    · intro h
      by_contra hscan
      -- the first scanline looks for the last move before the first entry
      have hbad := h 1 (-1) (.inr (by
        rw [scanLoop, if_pos (by omega)]
        refine mem_append_left _ ?_
        rw [line, if_neg hm, hlast]
        exact mem_cons_self))
      omega
    · intro hout fuel j hj
      rcases hj with hj | hj
      · exact hreads j hj
      · cases fuel with
        | zero => simp [scanLoop] at hj
        | succ fuel =>
          rw [scanLoop, if_neg (by omega)] at hj
          simp at hj
  · have hpos := List.length_pos_iff.2 hs
    refine ⟨fun _ => .inl hs, fun _ fuel j hj => ?_⟩
    rcases hj with hj | hj
    · exact hreads j hj
    · exact scanLoop_reads (fun j => 0 ≤ j ∧
        j < a.moves) (fun y _ => line_reads hm (by omega) y) fuel _ j hj

/-- The loop over the scanlines ends, except where its `int16` counter cannot pass the bottom. -/
theorem returns_iff (hn : a.n ≠ 0) (htop : -0x8000 ≤ r.top ∧ r.top < 0x8000)
    (hbottom : r.bottom < 0x8000) :
    (∃ fuel result, (a.fill (some r) fuel).ending = .returned result) ↔
      ¬ (r.bottom = 0x7fff ∧ ∃ i < a.n, (a.p i).2 = 0x7fff) := by
  have hfrom := clippedMin_mem hn htop
  have hmax := maxy_mem hn
  have hlast : (∃ i < a.n, (a.p i).2 = 0x7fff) ↔ a.maxy = 0x7fff := by
    obtain ⟨hall, i, hi, heq⟩ := maxy_spec hn
    constructor
    · rintro ⟨j, hj, hj'⟩
      have := hall j hj
      omega
    · intro h
      exact ⟨i, hi, by omega⟩
  have hclip : (r.bottom = 0x7fff ∧ a.maxy = 0x7fff) ↔ ¬ a.clippedMax (some r) < 0x7fff := by
    simp only [clippedMax]
    split_ifs <;> omega
  rw [hlast, hclip, not_not]
  constructor
  · rintro ⟨fuel, result, hret⟩
    by_contra hge
    have hto : a.clippedMax (some r) = 0x7fff := by
      simp only [clippedMax] at hge ⊢
      split_ifs at hge ⊢ <;> omega
    rw [fill, if_neg hn, int16_of_mem hfrom.1 hfrom.2, hto] at hret
    exact absurd ((scanLoop_runs fuel _ (by omega)).symm.trans hret) (by simp)
  · intro hto
    exact ⟨0x10001, 1, by rw [fill_eq hn htop hto (by decide)]⟩

theorem fill_crashes (hn : a.n ≠ 0) (fuel : ℕ) (result : ℤ) :
    (a.fill none fuel).ending ≠ .returned result := by
  have hmin := miny_mem hn
  obtain ⟨hle, i, hi, -⟩ := miny_spec hn
  have hrows : a.miny ≤ a.maxy := (hle i hi).trans ((maxy_spec hn).1 i hi)
  rw [fill, if_neg hn]
  cases fuel with
  | zero => simp [scanLoop]
  | succ fuel =>
    dsimp only [clippedMin, clippedMax]
    rw [int16_of_mem hmin.1 hmin.2, scanLoop, if_pos hrows]
    simp

end PolyArrays

/-- `fillPoly` is total: it returns, reads the index array where it is, and takes a missing clip
    rectangle for the whole surface. -/
structure FillTotal (m : Reads) (stray : ℤ → ℤ) (S : Surface) (vwk points_addr : U32) (n : ℕ)
    (index_addr : U32) (moves : ℕ) (clip : U32) : Prop where
  returns : ∃ fuel result, (fillPoly m stray fuel vwk points_addr n index_addr moves clip).ending =
    .returned result
  reads : ∀ fuel, ∀ j ∈ (fillPoly m stray fuel vwk points_addr n index_addr moves clip).reads,
    0 ≤ j ∧ j < moves
  noClip : clip = 0 →
    ∀ fuel x y, Covered (fillPoly m stray fuel vwk points_addr n index_addr moves clip).fills x y ↔
    Covered (fillPolyIn m stray fuel vwk points_addr n index_addr moves (some S.rect)).fills x y

/-- When it is. -/
def FillOk (n : ℕ) (index_addr : U32) (moves : ℕ) (clip : U32) : Prop :=
  let a := m.polyArrays (fun _ => 0) points_addr n index_addr moves
  vwk.getLsbD 0 = true ∨ n = 0 ∨ ∃ r, m.clipArray clip = some r ∧
    ¬ (r.bottom = 0x7fff ∧ ∃ i < n, (a.p i).2 = 0x7fff) ∧
      (moves = 0 ∨ stripSentinels a.entries ≠ [] ∨ a.entries ≠ [-4] ∧ a.Outside r)

theorem Reads.entries_stray (points_addr : U32) (n : ℕ) (index_addr : U32)
    (moves : ℕ) : (m.polyArrays stray points_addr n index_addr moves).entries =
      (m.polyArrays (fun _ => 0) points_addr n index_addr moves).entries := by
  refine map_congr_left fun i hi => ?_
  have hi' : i < moves := List.mem_range.1 hi
  have hin : (0 : ℤ) ≤ i ∧ (i : ℤ) < moves := by omega
  simp only [Reads.polyArrays, if_pos hin]

theorem Reads.clipArray_eq_none {m : Reads} {clip : U32} : m.clipArray clip = none ↔ clip = 0 := by
  simp [Reads.clipArray]

/-- `fillPoly` is total exactly under `FillOk`, whatever stands in memory outside of its arrays. -/
theorem fill_total_iff (S : Surface) (vwk points_addr : U32) (n : ℕ)
    (index_addr : U32) (moves : ℕ) (clip : U32) :
    FillTotal m stray S vwk points_addr n index_addr moves clip ↔
    FillOk m vwk points_addr n index_addr moves clip := by
  have hodd : vwk.getLsbD 0 = true → ∀ fuel cliprect,
      fillPolyIn m stray fuel vwk points_addr n index_addr moves cliprect =
      ⟨[], [], .returned (-1)⟩ :=
    fun h fuel cliprect => if_pos h
  have heven : vwk.getLsbD 0 ≠ true →
    ∀ fuel cliprect, fillPolyIn m stray fuel vwk points_addr n index_addr moves cliprect =
      (m.polyArrays stray points_addr n index_addr moves).fill cliprect fuel :=
        fun h fuel cliprect => if_neg h
  have hempty : n = 0 → ∀ fuel cliprect,
      (m.polyArrays stray points_addr n index_addr moves).fill cliprect fuel =
      ⟨[], [], .returned 1⟩ :=
    fun h fuel cliprect => if_pos h
  unfold FillOk
  by_cases hv : vwk.getLsbD 0 = true
  · refine ⟨fun _ => .inl hv, fun _ => ⟨⟨0, -1, ?_⟩, ?_, ?_⟩⟩ <;> simp [fillPoly, hodd hv]
  by_cases hn : n = 0
  · refine ⟨fun _ => .inr (.inl hn), fun _ => ⟨⟨0, 1, ?_⟩, ?_, ?_⟩⟩ <;> simp [fillPoly,
      heven hv, hempty hn]
  rw [or_iff_right hv, or_iff_right hn, ← m.entries_stray stray]
  cases hclip : m.clipArray clip with
  | none =>
    refine ⟨fun h => ?_, fun h => ?_⟩
    · obtain ⟨fuel, result, hret⟩ := h.returns
      rw [fillPoly, heven hv, hclip] at hret
      exact absurd hret (PolyArrays.fill_crashes hn fuel result)
    · simp at h
  | some r =>
    obtain ⟨htop, hbottom⟩ := Reads.clipArray_mem hclip
    have hne : clip ≠ 0 := by
      intro h0
      rw [Reads.clipArray_eq_none.2 h0] at hclip
      simp at hclip
    have hret :=
      PolyArrays.returns_iff (a := m.polyArrays stray points_addr n index_addr moves) hn
        htop hbottom.2
    have hreads :=
      PolyArrays.reads_iff (a := m.polyArrays stray points_addr n index_addr moves) hn htop
    constructor
    · intro h
      have h1 := h.returns
      have h2 := h.reads
      simp only [fillPoly, heven hv, hclip] at h1 h2
      exact ⟨r, rfl, hret.1 h1, hreads.1 h2⟩
    · rintro ⟨r', hr', h1, h2⟩
      obtain rfl := Option.some.inj hr'
      refine ⟨?_, ?_, fun h0 => absurd h0 hne⟩
      · simp only [fillPoly, heven hv, hclip]
        exact hret.2 h1
      · simp only [fillPoly, heven hv, hclip]
        exact hreads.2 h2

theorem triangle_total :
    FillTotal triangle (fun _ => 0) (plainSurface 64 64 (by decide)) 0 0x1000 3 0 0 0x2000 :=
  (fill_total_iff triangle (fun _ => 0) (plainSurface 64 64 (by decide)) 0 0x1000 3 0 0 0x2000).2
    (.inr (.inr ⟨⟨2, 2, 20, 20⟩, by decide, fun h => absurd h.1 (by decide), .inl rfl⟩))

/-- With clipping off the first scanline crashes. -/
theorem triangle_crashes :
    ¬ FillTotal triangle (fun _ => 0) (plainSurface 64 64 (by decide)) 0 0x1000 3 0 0 0 := by
  intro h
  obtain ⟨fuel, result, hret⟩ := h.returns
  have hclip : triangle.clipArray 0 = none := by decide
  rw [fillPoly, fillPolyIn, if_neg (by decide), hclip] at hret
  exact PolyArrays.fill_crashes (by decide) fuel result hret

end Aranym.Vdi
