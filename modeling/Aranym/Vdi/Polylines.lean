/-
  Polylines of the NF VDI driver (`SoftVdiDriver::drawLine`).

  `drawLine` takes two points or a table of points, with or without a list of
  moves, and hands lines to `hsDrawLine`.  What it draws is the list of these
  calls: a line with its `last_pixel` flag.
-/
import Aranym.Vdi.Lines

namespace Aranym.Vdi

open Lib Surface Segment

/-- A call of `hsDrawLine`: the line and `last_pixel`. -/
abbrev LineCall : Type := Segment × Bool

/-! ## Clipping -/

/-- The clipping rectangle. -/
structure Rect where
  left : ℤ
  top : ℤ
  right : ℤ
  bottom : ℤ
  deriving DecidableEq, Repr

/-- The point is in it. -/
def Rect.Contains (r : Rect) (p : ℤ × ℤ) : Prop := r.left ≤ p.1 ∧ p.1 ≤ r.right ∧ r.top ≤ p.2 ∧
    p.2 ≤ r.bottom
deriving Decidable

/-- The whole surface. -/
def Surface.rect (S : Surface) : Rect := ⟨0, 0, S.width - 1, S.height - 1⟩

/-- The `float` arithmetic of `clipLine`, for the slope `m = dy / dx`. -/
structure FloatCut where
  /-- `(int)(d * m)` -/
  mul : ℤ → ℤ → ℤ → ℤ
  /-- `(int)(d / m)` -/
  div : ℤ → ℤ → ℤ → ℤ

/-- `CLIP_LEFT_EDGE`. -/
def clipLeftEdge : BitVec 4 := 0x1
/-- `CLIP_RIGHT_EDGE`. -/
def clipRightEdge : BitVec 4 := 0x2
/-- `CLIP_BOTTOM_EDGE`. -/
def clipBottomEdge : BitVec 4 := 0x4
/-- `CLIP_TOP_EDGE`. -/
def clipTopEdge : BitVec 4 := 0x8

/-- The sides it is beyond. -/
def clipEncode (x y : ℤ) (r : Rect) : BitVec 4 :=
  (if x < r.left then clipLeftEdge else if x > r.right then clipRightEdge else 0) |||
    if y < r.top then clipTopEdge else if y > r.bottom then clipBottomEdge else 0

/-- The end that is outside is moved to the edge. -/
def clipEnd (f : FloatCut) (r : Rect) (code1 : BitVec 4) (s : Segment) : Segment :=
  -- without a slope `m` is 1
  let mul := fun d => if s.x2 ≠ s.x1 then f.mul d (s.y2 - s.y1) (s.x2 - s.x1) else d
  let x := fun d => if s.x2 ≠ s.x1 then s.x1 + f.div d (s.y2 - s.y1) (s.x2 - s.x1) else s.x1
  if code1 &&& clipLeftEdge ≠ 0 then { s with x1 := r.left, y1 := s.y1 + mul (r.left - s.x1) }
  else if code1 &&& clipRightEdge ≠
    0 then { s with x1 := r.right, y1 := s.y1 + mul (r.right - s.x1) }
  else if code1 &&& clipBottomEdge ≠ 0 then { s with x1 := x (r.bottom - s.y1), y1 := r.bottom }
  else if code1 &&& clipTopEdge ≠ 0 then { s with x1 := x (r.top - s.y1), y1 := r.top }
  else s

/-- `clipLine`: whether to draw, and the line that is left. -/
def clipLine (f : FloatCut) (r : Rect) : ℕ → Segment → Option (Bool × Segment)
  | 0, _ => none
  | fuel + 1, s =>
    let code1 := clipEncode s.x1 s.y1 r
    let code2 := clipEncode s.x2 s.y2 r
    if code1 ||| code2 = 0 then some (true, s)
    else if code1 &&& code2 ≠ 0 then some (false, s)
    else if code1 = 0 then clipLine f r fuel (clipEnd f r code2 ⟨s.x2, s.y2, s.x1, s.y1⟩)
    else clipLine f r fuel (clipEnd f r code1 s)

/-! ## The driver -/

/-- What the driver reads of the memory of the machine. -/
structure Reads where
  readInt16 : U32 → U16
  readInt32 : U32 → U32

namespace Reads

variable (m : Reads)

/-- `(int16)ReadInt16(addr)`. -/
def word (addr : U32) : ℤ := (m.readInt16 addr).toInt

/-- Point `k` of a table. -/
def point (table : U32) (k : ℕ) : ℤ × ℤ :=
  (m.word (table + BitVec.ofNat 32 (4 * k)), m.word (table + BitVec.ofNat 32 (4 * k + 2)))

/-- The line from one point of the table to the next. -/
def segment (table : U32) (k : ℕ) : Segment :=
  ⟨(m.point table (k - 1)).1, (m.point table (k - 1)).2, (m.point table k).1, (m.point table k).2⟩

/-- The clip rectangle, if clipping is not off. -/
def clipArray (clip : U32) : Option Rect :=
  if clip = 0 then none
  else
    let edge := fun i => ((m.readInt32 (clip + BitVec.ofNat 32 (4 * i))).setWidth 16).toInt
    some ⟨edge 0, edge 1, edge 2, edge 3⟩

/-- The rectangle that lines are clipped to: without one the surface. -/
def cliprect (S : Surface) (clip : U32) : Rect := (m.clipArray clip).getD S.rect

end Reads

section
variable (f : FloatCut) (m : Reads) (r : Rect) (fuel : ℕ)

/-- One line. -/
def drawSingleLine (s : Segment) (lastPixel : Bool) : Option (List LineCall) := do
  let (draw, s) ← clipLine f r fuel s
  some (if draw then [(s, lastPixel)] else [])

/-- The loop of `drawTableLine`, from point `k` on; `length` points are left. -/
def tableLoop (table : U32) : ℕ → ℕ → Option (List LineCall)
  | _, 0 => some []
  | k, length + 1 => do
    let calls ← drawSingleLine f r fuel (m.segment table k) (length + 1 = 1)
    let rest ← tableLoop table (k + 1) length
    some (calls ++ rest)

/-- A table of points. -/
def drawTableLine (table : U32) (length : ℕ) : Option (List LineCall) :=
  tableLoop f m r fuel table 1 (length - 1)

/-- The point that the entry at `moves` stands for. -/
def movepnt (index : U32) (moves : ℤ) : ℤ :=
  if 0 ≤ moves then (m.word (index + BitVec.ofInt 32 moves) + 4).tdiv 2 else -1

/-- The loop of `drawMoveLine`, from point `n` on; `count` points are left. -/
def moveLoop (table index : U32) (length : ℕ) : ℕ → ℤ → ℕ → Option (List LineCall)
  | _, _, 0 => some []
  | n, moves, count + 1 =>
    if n = movepnt m index moves then moveLoop table index length (n + 1) (moves - 2) count
    else do
      let calls ← drawSingleLine f r fuel (m.segment table n) (length = 1)
      let rest ← moveLoop table index length (n + 1) moves count
      some (calls ++ rest)

/-- A table with moves. -/
def drawMoveLine (table : U32) (length : ℕ) (index : U32) (moves : ℕ) : Option (List LineCall) :=
  let moves : ℤ := 2 * moves - 2
  let moves := if m.word (index + BitVec.ofInt 32 moves) = -4 then moves - 2 else moves
  let moves := if m.word (index + BitVec.ofInt 32 moves) = -2 then moves - 2 else moves
  moveLoop f m r fuel table index length 1 moves (length - 1)

end

/-- `drawLine`: the result and the lines drawn; `none` for the lines if the clipping takes more than
    `fuel` steps. -/
def drawLine (f : FloatCut) (m : Reads) (S : Surface) (fuel : ℕ) (vwk x1_ y1_ x2_ y2_ clip : U32) :
    ℤ × Option (List LineCall) :=
  let r := m.cliprect S clip
  if vwk.getLsbD 0 then
    if 1 < (y1_.setWidth 16).toNat then (-1, some [])
    else
      let table := x1_
      let length := (y1_ >>> 16).toNat
      let moves := if (y1_.setWidth 16).toNat = 1 then (x2_.setWidth 16).toNat else 0
      let first : Segment := m.segment table 1
      (1, if table ≠ 0 then
          if moves ≠ 0 then drawMoveLine f m r fuel table length y2_ moves
          else if length = 0 then some []
          else if length = 1 then drawSingleLine f r fuel first true
          else drawTableLine f m r fuel table length
        else drawSingleLine f r fuel first true)
  else
    let x1 := (x1_.setWidth 16).toInt
    let y1 := (y1_.setWidth 16).toInt
    let x2 := (x2_.setWidth 16).toInt
    let y2 := (y2_.setWidth 16).toInt
    (1, drawSingleLine f r fuel ⟨x1, y1, x2, y2⟩ true)

/-! ## Loops over points inside the clip rectangle -/

section
variable {f : FloatCut} {m : Reads} {r : Rect} {fuel : ℕ} {table index : U32}

theorem clipEncode_eq_zero {p : ℤ × ℤ} : clipEncode p.1 p.2 r = 0 ↔ r.Contains p := by
  unfold clipEncode Rect.Contains
  split_ifs <;> simp [clipLeftEdge, clipRightEdge, clipTopEdge, clipBottomEdge] <;> omega

theorem drawSingleLine_inside {k : ℕ} (h : r.Contains (m.point table (k - 1)))
    (h' : r.Contains (m.point table k)) (lastPixel : Bool) :
    drawSingleLine f r (fuel + 1) (m.segment table k) lastPixel =
      some [(m.segment table k, lastPixel)] := by
  have h1 := clipEncode_eq_zero.2 h
  have h2 := clipEncode_eq_zero.2 h'
  simp [drawSingleLine, clipLine, Reads.segment, h1, h2]

/-- The table without moves: `count` segments, and the last one with its last pixel. -/
theorem tableLoop_eq (k count : ℕ)
    (hin : ∀ j, k - 1 ≤ j → j < k + count → r.Contains (m.point table j)) :
    tableLoop f m r (fuel + 1) table k count =
      some ((List.range' k count).map
        fun j => (m.segment table j, decide (j + 1 = k + count))) := by
  induction count generalizing k with
  | zero => rfl
  | succ count ih =>
    have hrest : ∀ j, k + 1 - 1 ≤ j → j < k + 1 + count → r.Contains (m.point table j) :=
      fun j h1 h2 => hin j (by omega) (by omega)
    have hlast : ∀ j, (j + 1 = k + 1 + count) = (j + 1 = k + (count + 1)) := fun j => by
      rw [show k + 1 + count = k + (count + 1) by omega]
    rw [tableLoop, drawSingleLine_inside (hin _ le_rfl (by omega)) (hin _ (by omega) (by omega)),
      ih (k + 1) hrest]
    simp [List.range'_succ, hlast]

theorem drawTableLine_eq {length : ℕ} (hlen : 2 ≤ length)
    (hin : ∀ j < length, r.Contains (m.point table j)) :
    drawTableLine f m r (fuel + 1) table length =
      some ((List.range' 1 (length - 1)).map
        fun j => (m.segment table j, decide (j + 1 = length))) := by
  rw [drawTableLine, tableLoop_eq 1 (length - 1) fun j _ hj => hin j (by omega),
    show 1 + (length - 1) = length by omega]

/-- All the lines drawn, if there is an end, have the property `P`. -/
def All (P : LineCall → Prop) (x : Option (List LineCall)) : Prop :=
  ∀ calls, x = some calls → ∀ c ∈ calls, P c

section
variable {P : LineCall → Prop}

theorem All.append {x y : Option (List LineCall)} (hx : All P x) (hy : All P y) :
    All P (do let calls ← x; let rest ← y; some (calls ++ rest)) := by
  cases x <;> cases y <;> simp_all [All, or_imp, forall_and]

theorem all_tableLoop (hP : ∀ s b, All P (drawSingleLine f r fuel s b)) :
    ∀ k length, All P (tableLoop f m r fuel table k length)
  | _, 0 => by simp [All, tableLoop]
  | _, length + 1 => (hP _ _).append (all_tableLoop hP _ length)

theorem all_moveLoop {length : ℕ} (hP : ∀ s, All P (drawSingleLine f r fuel s (length = 1))) :
    ∀ n moves count, All P (moveLoop f m r fuel table index length n moves count)
  | _, _, 0 => by simp [All, moveLoop]
  | n, moves, count + 1 => by
    rw [moveLoop]
    split_ifs
    · exact all_moveLoop hP _ _ count
    · exact (hP _).append (all_moveLoop hP _ _ count)

end

/-- Both ends are in the rectangle. -/
def Rect.Clips (r : Rect) (s : Segment) : Prop := r.Contains (s.x1, s.y1) ∧ r.Contains (s.x2, s.y2)

/-- What is left of a line is inside, wherever it was cut. -/
theorem all_drawSingleLine (s : Segment) (lastPixel : Bool) :
    All (fun c => c.2 = lastPixel ∧ r.Clips c.1) (drawSingleLine f r fuel s lastPixel) := by
  induction fuel generalizing s with
  | zero => simp [All, drawSingleLine, clipLine]
  | succ fuel ih =>
    unfold drawSingleLine clipLine
    dsimp only
    split_ifs with hin
    · obtain ⟨h1, h2⟩ := BitVec.or_eq_zero_iff.1 hin
      rintro _ ⟨⟩ c hc
      obtain rfl := List.mem_singleton.1 hc
      exact ⟨rfl, clipEncode_eq_zero.1 h1, clipEncode_eq_zero.1 h2⟩
    · simp [All]
    · exact ih _
    · exact ih _

theorem drawMoveLine_flags {length moves : ℕ} (hlen : length ≠ 1) {calls : List LineCall}
    (h : drawMoveLine f m r fuel table length index moves = some calls) :
    ∀ c ∈ calls, c.2 = false :=
  all_moveLoop
    (fun s calls h c hc => by simp [(all_drawSingleLine s _ calls h c hc).1, hlen]) _ _ _ _ h

theorem all_drawLine {S : Surface} (vwk x1_ y1_ x2_ y2_ clip : U32) :
    All (fun c => (m.cliprect S clip).Clips c.1)
      (drawLine f m S fuel vwk x1_ y1_ x2_ y2_ clip).2 := by
  have hsingle : ∀ s b,
    All (fun c => (m.cliprect S clip).Clips c.1) (drawSingleLine f (m.cliprect S clip) fuel s b) :=
    fun s b calls h c hc => (all_drawSingleLine s b calls h c hc).2
  unfold drawLine
  dsimp only
  split_ifs
  all_goals first
    | exact hsingle _ _
    | exact all_moveLoop (fun _ => hsingle _ _) _ _ _
    | exact all_tableLoop hsingle _ _
    | simp [All]

end

/-! ## Polylines -/

/-- A list of moves without the `-4` and `-2` at its end. -/
def stripSentinels (entries : List ℤ) : List ℤ :=
  let entries := if entries.getLast? = some (-4) then entries.dropLast else entries
  if entries.getLast? = some (-2) then entries.dropLast else entries

/-- A call of `drawLine` for a table of at least two points, all of them inside the clip
    rectangle. -/
structure TableRequest (m : Reads) (S : Surface) where
  vwk : U32
  x1_ : U32
  y1_ : U32
  x2_ : U32
  y2_ : U32
  clip : U32
  isTable : vwk.getLsbD 0 = true
  mode_le : (y1_.setWidth 16).toNat ≤ 1
  table_ne : x1_ ≠ 0
  two_le : 2 ≤ (y1_ >>> 16).toNat
  inside : ∀ k < (y1_ >>> 16).toNat, (m.cliprect S clip).Contains (m.point x1_ k)

namespace TableRequest

variable {m : Reads} {S : Surface} (q : TableRequest m S)

/-- The points. -/
def length : ℕ := (q.y1_ >>> 16).toNat

/-- The length of the list of moves. -/
def moves : ℕ := if (q.y1_.setWidth 16).toNat = 1 then (q.x2_.setWidth 16).toNat else 0

/-- The moves. -/
def entries : List ℤ :=
  stripSentinels ((List.range q.moves).map fun i => m.word (q.y2_ + BitVec.ofNat 32 (2 * i)))

/-- There is a move to point `k`. -/
def MoveTo (k : ℕ) : Prop := ∃ e ∈ q.entries, (e + 4).tdiv 2 = k
deriving Decidable

/-- Point `k` is the last one of its sub-polyline. -/
def EndsRun (k : ℕ) : Prop := k + 1 = q.length ∨ q.MoveTo (k + 1)
deriving Decidable

/-- The segments of the sub-polylines, those that end one with their last pixel. -/
def segments : List LineCall :=
  ((List.range' 1 (q.length - 1)).filter fun k => ¬ q.MoveTo k).map fun k =>
    (m.segment q.x1_ k, decide (q.EndsRun k))

/-- What `drawLine` does for the request. -/
def drawn (f : FloatCut) (fuel : ℕ) : ℤ × Option (List LineCall) :=
  drawLine f m S fuel q.vwk q.x1_ q.y1_ q.x2_ q.y2_ q.clip

variable {q}

theorem entries_of_moves (h : q.moves = 0) : q.entries = [] := by simp [entries, h, stripSentinels]

theorem not_moveTo (h : q.moves = 0) (k : ℕ) : ¬ q.MoveTo k := by simp [MoveTo, entries_of_moves h]

theorem drawn_of_moves (f : FloatCut) (fuel : ℕ) (h : q.moves ≠ 0) :
    q.drawn f fuel =
      (1, drawMoveLine f m (m.cliprect S q.clip) fuel q.x1_ q.length q.y2_ q.moves) := by
  have hmode := q.mode_le
  have hmoves : (if (q.y1_.setWidth 16).toNat = 1 then (q.x2_.setWidth 16).toNat else 0) =
    q.moves := rfl
  rw [drawn, drawLine, if_pos q.isTable, if_neg (by omega)]
  dsimp only
  rw [if_pos q.table_ne, hmoves, if_pos h]
  rfl

theorem drawn_of_no_moves (f : FloatCut) (fuel : ℕ) (h : q.moves = 0) :
    q.drawn f fuel = (1, drawTableLine f m (m.cliprect S q.clip) fuel q.x1_ q.length) := by
  have hmode := q.mode_le
  have hlen := q.two_le
  have hmoves : (if (q.y1_.setWidth 16).toNat = 1 then (q.x2_.setWidth 16).toNat else 0) =
    q.moves := rfl
  rw [drawn, drawLine, if_pos q.isTable, if_neg (by omega)]
  dsimp only
  rw [if_pos q.table_ne, hmoves, if_neg (fun hne => hne h), if_neg (by omega), if_neg (by omega)]
  rfl

theorem segments_of_no_moves (h : q.moves = 0) :
    q.segments = (List.range' 1 (q.length - 1)).map fun j =>
      (m.segment q.x1_ j, decide (j + 1 = q.length)) := by
  simp [segments, EndsRun, not_moveTo h]

end TableRequest

/-- The dots of a list of lines. -/
def callDots (S : Surface) (pattern : U16) (calls : List LineCall) : List (ℤ × Bool) :=
  calls.flatMap fun c => lineDots S pattern c.1.x1 c.1.y1 c.1.x2 c.1.y2 c.2

section
variable {S : Surface} (logOp : U16) (fgColor bgColor : U32) (px : S.Pixels)

/-- Lines one after the other, each with its pattern. -/
def drawLines (calls : List (U16 × LineCall)) : S.Pixels :=
  calls.foldl (fun px c => hsDrawLine c.1 px c.2.1.x1 c.2.1.y1 c.2.1.x2 c.2.1.y2
    fgColor bgColor logOp c.2.2) px

theorem drawLines_eq (calls : List (U16 × LineCall)) : drawLines logOp fgColor bgColor px calls =
    paint (plot logOp fgColor bgColor)
      (calls.flatMap fun c => lineDots S c.1 c.2.1.x1 c.2.1.y1 c.2.1.x2 c.2.1.y2 c.2.2) px :=
  foldl_paint (fun _ _ => (rfl : id _ = _)) calls px

end

/-- With XOR (`logOp` 3) they are taken back by drawing them again, in any order. -/
theorem xorLines_again {S : Surface} (fgColor bgColor : U32) (px : S.Pixels)
    {calls calls' : List (U16 × LineCall)} (h : calls.Perm calls') :
    drawLines 3 fgColor bgColor (drawLines 3 fgColor bgColor px calls) calls' = px := by
  rw [drawLines_eq, drawLines_eq]
  refine paint_again (fun b v => ?_) (fun b c v => ?_) (h.flatMap_right _)
  · cases b <;> simp [plot]
  · cases b <;> cases c <;> simp [plot]

/-- A cross, in the other order the second time. -/
theorem cross_taken_back : drawLines 3 0 0
    (drawLines 3 0 0 (fun _ => 7 : (plainSurface 64 64 (by decide)).Pixels)
      [(0xffff, ⟨1, 1, 9, 9⟩, true), (0xf0f0, ⟨9, 1, 1, 9⟩, false)])
    [(0xf0f0, ⟨9, 1, 1, 9⟩, false), (0xffff, ⟨1, 1, 9, 9⟩, true)] = fun _ => 7 :=
  xorLines_again 0 0 _ (.swap _ _ _)

section
variable {S : Surface} {pattern : U16} {l : Segment} {lastPixel : Bool} {d : ℤ × Bool}

/-- The sum of a sloped line can only lag behind, so that no dot is beyond its ends. -/
theorem mem_lineDots (h : l.Within S) (hp : S.pitch < 0x8000) (hM : l.longer < 0x7fff)
    (hd : d ∈ lineDots S pattern l.x1 l.y1 l.x2 l.y2 lastPixel) :
    ∃ k ≤ l.longer, ∃ s ≤ l.shorter, d.1 = S.offset (l.pixelAt k s).1 (l.pixelAt k s).2 := by
  by_cases hf : l.x1 = l.x2 ∧ l.y1 < l.y2 ∨ l.y1 = l.y2 ∧ l.x1 < l.x2
  · rw [lineDots_forward h lastPixel hf] at hd
    obtain ⟨k, hk, rfl⟩ := mem_path.1 hd
    have hk := le_longer_of_lt_count hk
    exact ⟨k, hk, _, minor_le hk, rfl⟩
  by_cases hb : l.x1 = l.x2 ∧ l.y2 < l.y1 ∨ l.y1 = l.y2 ∧ l.x2 < l.x1
  · rw [lineDots_backward h lastPixel hb] at hd
    obtain ⟨k, hk, rfl⟩ := mem_path.1 hd
    have hk : l.count lastPixel - 1 - k < l.count lastPixel := by omega
    have hk := le_longer_of_lt_count hk
    exact ⟨_, hk, _, minor_le hk, rfl⟩
  rw [lineDots, if_neg (by omega), if_neg (by omega)] at hd
  rcases List.mem_append.1 hd with hd | hd
  · refine ⟨0, Nat.zero_le _, 0, Nat.zero_le _, ?_⟩
    unfold pointDots at hd
    split_ifs at hd <;> simp_all [pixelAt, colAt, rowAt]
  · rw [if_neg (by omega), if_neg (by omega), generalLine_path h hM] at hd
    obtain ⟨k, hk, rfl⟩ := mem_path.1 hd
    have hk := le_longer_of_lt_count hk
    exact ⟨k, hk, _, (loopSteps_le hM k).trans (minor_le hk), loopAddress_narrow h hp _ _⟩

theorem Rect.Clips.pixelAt {r : Rect} (h : r.Clips l) {k s : ℕ} (hk : k ≤ l.longer)
    (hs : s ≤ l.shorter) : r.Contains (l.pixelAt k s) := by
  obtain ⟨⟨h1, h2, h3, h4⟩, h5, h6, h7, h8⟩ := h
  have hx := between (colAt_le hk hs)
  have hy := between (rowAt_le hk hs)
  refine ⟨?_, ?_, ?_, ?_⟩ <;> dsimp only [Segment.pixelAt] at * <;> omega

theorem within_of_inside (hp : S.pitch < 0x8000) (hh : S.height < 0x8000) (h1 : S.Inside l.x1 l.y1)
    (h2 : S.Inside l.x2 l.y2) : l.Within S ∧ l.longer < 0x7fff := by
  have hw : (S.width : ℤ) ≤ S.pitch :=
    (le_mul_of_one_le_left (by omega) S.bytes_pos).trans S.row_le'
  unfold Surface.Inside at h1 h2
  refine ⟨⟨h1, h2, by omega, by omega, by omega, by omega⟩, ?_⟩
  unfold longer Segment.width Segment.height
  omega

end

/-- **Nothing outside of the clip rectangle changes**, for all tables of points and whatever `float`
    does. -/
theorem lines_clipped {S : Surface} (f : FloatCut) (m : Reads) (fuel : ℕ)
    (vwk x1_ y1_ x2_ y2_ clip fgColor bgColor : U32)
    (pattern logOp : U16) (px : S.Pixels) {calls : List LineCall} (hp : S.pitch < 0x8000)
    (hh : S.height < 0x8000) (hr : ∀ p, (m.cliprect S clip).Contains p → S.Inside p.1 p.2)
    (h : (drawLine f m S fuel vwk x1_ y1_ x2_ y2_ clip).2 = some calls) {a : ℤ}
    (ha : ∀ p, (m.cliprect S clip).Contains p → S.offset p.1 p.2 ≠ a) :
    drawLines logOp fgColor bgColor px (calls.map (pattern, ·)) a = px a := by
  rw [drawLines_eq]
  refine paint_apply_of_not_mem fun hmem => ?_
  obtain ⟨d, hd, rfl⟩ := List.mem_map.1 hmem
  rw [List.flatMap_map] at hd
  obtain ⟨c, hc, hd⟩ := List.mem_flatMap.1 hd
  have hclips := all_drawLine vwk x1_ y1_ x2_ y2_ clip calls h c hc
  obtain ⟨hwithin, hlonger⟩ := within_of_inside hp hh (hr _ hclips.1) (hr _ hclips.2)
  obtain ⟨k, hk, s, hs, heq⟩ := mem_lineDots hwithin hp hlonger hd
  exact ha _ (hclips.pixelAt hk hs) heq.symm

/-- A line from the left of the surface does not reach the memory before it. -/
theorem left_end_clipped : drawLines 1 5 0 (fun _ => 7 : (plainSurface 64 64 (by decide)).Pixels)
    ([(⟨0, 3, 9, 3⟩, true)].map (0xffff, ·)) (-1) = 7 := by
  refine lines_clipped ⟨fun _ _ _ => 0, fun _ _ _ => 0⟩ ⟨fun _ => 0, fun _ => 0⟩ 2 0
    (-5) 3 9 3 0 5 0 0xffff 1 (fun _ => 7)
    (by decide) (by decide) ?_ rfl ?_
  · rintro p ⟨h1, h2, h3, h4⟩
    exact ⟨h1, Int.lt_of_le_sub_one h2, h3, Int.lt_of_le_sub_one h4⟩
  · rintro p ⟨h1, -, h3, -⟩ heq
    have hpos : 0 ≤ offset (plainSurface 64 64 (by decide)) p.1 p.2 :=
      add_nonneg (mul_nonneg h3 (Int.natCast_nonneg _)) (mul_nonneg h1 (Int.natCast_nonneg _))
    omega

/-- Every sub-polyline is drawn with its last point and without drawing another one twice, and a
    list without moves makes no difference. -/
structure PolylineDrawn {m : Reads} {S : Surface} (f : FloatCut) (fuel : ℕ)
    (q : TableRequest m S) : Prop where
  segments : q.drawn f fuel = (1, some q.segments)
  ends : ∀ k < q.length, q.EndsRun k → ∃ c ∈ q.segments, c.2 = true ∧
    (c.1.x2, c.1.y2) = m.point q.x1_ k
  noMoves : q.entries = [] →
    ∃ calls, drawTableLine f m (m.cliprect S q.clip) fuel q.x1_ q.length = some calls ∧
    ∀ pattern, (callDots S pattern q.segments).Perm (callDots S pattern calls)

/-- A polyline that the clip rectangle contains is drawn as it should be exactly if it has no list
    of moves. -/
theorem polyline_drawn_iff {m : Reads} {S : Surface} (f : FloatCut) (fuel : ℕ)
    (q : TableRequest m S) : PolylineDrawn f (fuel + 1) q ↔ q.moves = 0 := by
  have hlen : 2 ≤ q.length := q.two_le
  constructor
  · intro hd
    by_contra hne
    obtain ⟨c, hc, hlast, -⟩ := hd.ends (q.length - 1) (by omega) (.inl (by omega))
    -- the last point is drawn by a line with its last pixel, which `drawMoveLine` does not draw
    have hcalls := hd.segments
    rw [TableRequest.drawn_of_moves f _ hne, Prod.mk.injEq] at hcalls
    have hflag := drawMoveLine_flags (by omega) hcalls.2 c hc
    simp [hlast] at hflag
  · intro h
    have htable : drawTableLine f m (m.cliprect S q.clip) (fuel + 1) q.x1_ q.length = _ :=
      drawTableLine_eq hlen q.inside
    rw [← TableRequest.segments_of_no_moves h] at htable
    refine ⟨by rw [TableRequest.drawn_of_no_moves f _ h, htable], ?_,
      fun _ => ⟨_, htable, fun _ => .refl _⟩⟩
    rintro k hk (hend | hmove)
    · refine ⟨(m.segment q.x1_ k, true), ?_, rfl, rfl⟩
      rw [TableRequest.segments_of_no_moves h]
      refine List.mem_map.2 ⟨k, List.mem_range'_1.2 ⟨by omega, by omega⟩, by simp [hend]⟩
    · exact absurd hmove (TableRequest.not_moveTo h _)

/-- A table with the points (0,0) and (5,0) at 0x1000, and a list of moves with the entry -4 at
    0x2000. -/
def twoPoints : Reads where
  readInt16 addr := if addr = 0x1004 then 5 else if addr = 0x2000 then -4 else 0
  readInt32 _ := 0

/-- The request for this table, with or without the list of moves. -/
def twoPointsRequest (mode : BitVec 1) :
    TableRequest twoPoints (plainSurface 64 64 (by decide)) where
  vwk := 1
  x1_ := 0x1000
  y1_ := 0x20000 + mode.setWidth 32
  x2_ := 1
  y2_ := 0x2000
  clip := 0
  isTable := rfl
  mode_le := by revert mode; decide
  table_ne := by decide
  two_le := by revert mode; decide
  inside := by
    have hlen : ((0x20000 + mode.setWidth 32 : U32) >>> 16).toNat = 2 := by revert mode; decide
    rw [hlen]
    decide

theorem two_points_drawn : PolylineDrawn ⟨fun _ _ _ => 0, fun _ _ _ => 0⟩ 1 (twoPointsRequest 0) :=
  (polyline_drawn_iff ⟨fun _ _ _ => 0, fun _ _ _ => 0⟩ 0 (twoPointsRequest 0)).2 rfl

/-- With a list that holds only -4 the last point is missing. -/
theorem last_point_missing :
    ¬ PolylineDrawn ⟨fun _ _ _ => 0, fun _ _ _ => 0⟩ 1 (twoPointsRequest 1) := by
  intro h
  exact absurd h.segments (by decide +kernel)

end Aranym.Vdi
