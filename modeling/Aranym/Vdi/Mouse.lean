/-
  The mouse pointer of the NF VDI driver.

  Before the pointer is drawn, the pixels under it are saved, and they are
  restored before it is drawn somewhere else or hidden.  `Shown` says that
  restoring them gives back the surface without the pointer; every call keeps
  it.
-/
import Aranym.Lib.Run
import Aranym.Vdi.Surface

namespace Aranym.Vdi

open Lib List BitVec

/-- `Mouse` of the driver.  `x`, `y`, `width`, `height`, `background` and the two colors are its
    `storage`. -/
structure Mouse where
  x : U16
  y : U16
  width : U16
  height : U16
  background : ℕ → ℕ → U32
  foregroundColor : U32
  backgroundColor : U32
  /-- `hot_x & 0xf` -/
  hotX : Fin 16
  hotY : Fin 16
  mask : ℕ → U16
  shape : ℕ → U16

/-- The driver with its surface. -/
structure Screen (S : Surface) where
  mouse : Mouse
  px : S.Pixels

/-- The parameters of `drawMouse`. -/
structure MouseCall where
  x : ℤ
  y : ℤ
  mode : U32
  data : U32
  hotX : U32
  hotY : U32
  fgColor : U32
  bgColor : U32

open Surface

variable {S : Surface}

/-- What was below it. -/
def restoreMouseBackground (s : Screen S) : Screen S :=
  let x := s.mouse.x.toInt
  let y := s.mouse.y.toInt
  let put (px : S.Pixels) (c : ℕ × ℕ) :=
    hsPutPixel px (x + c.2) (y + c.1) (s.mouse.background c.1 c.2)
  { s with px := (grid s.mouse.height.toNat s.mouse.width.toNat).foldl put s.px }

/-- `saveMouseBackground`; its parameters are `int16`. -/
def saveMouseBackground (s : Screen S) (x y width height : ℤ) : Screen S :=
  let x := int16 x
  let y := int16 y
  let width := int16 width
  let height := int16 height
  { s with mouse := { s.mouse with
      background := fun i j =>
        if (i : ℤ) < height ∧ (j : ℤ) < width then hsGetPixel s.px (x + j) (y + i)
          else s.mouse.background i j
      x := BitVec.ofInt 16 x
      y := BitVec.ofInt 16 y
      width := BitVec.ofInt 16 width
      height := BitVec.ofInt 16 height } }

/-- A pattern of the pointer, rolled to its place. -/
def rolled (p : ℕ → U16) (x y : ℤ) : Option (ℕ → U16) :=
  some fun k => (p ((k - y) % 16).toNat).rotateLeft (x % 16).toNat

/-- The edge of the screen: the first pixel that is drawn, and how many. -/
def clipAxis (v n : ℤ) : ℤ × ℤ :=
  if v < 0 then (0, 16 + v)
  else (v, if v + 16 ≥ n then n - v else 16)

/-- `drawMouse` from the hot spot on. -/
def drawPointer (s : Screen S) (x y : ℤ) : Option (Screen S) :=
  let x := x - s.mouse.hotX.val
  let y := y - s.mouse.hotY.val
  let mm := rolled s.mouse.mask x y
  let md := rolled s.mouse.shape x y
  let (x, w) := clipAxis x S.width
  let (y, h) := clipAxis y S.height
  let s := saveMouseBackground s x y w h
  do
    let px ← hsFillArea s.px x y w h mm s.mouse.backgroundColor s.mouse.backgroundColor 2
    let px ← hsFillArea px x y w h md s.mouse.foregroundColor s.mouse.foregroundColor 2
    some { s with px := px }

/-- The new shape; `mode` is the address of the mask. -/
def changeShape (readInt16 : U32 → U16) (s : Screen S) (c : MouseCall) : Screen S :=
  { s with mouse := { s.mouse with
      mask := fun i => (readInt16 (c.mode + BitVec.ofNat 32 (2 * i))).reverse
      shape := fun i => (readInt16 (c.data + BitVec.ofNat 32 (2 * i))).reverse
      hotX := Fin.ofNat 16 c.hotX.toNat
      hotY := Fin.ofNat 16 c.hotY.toNat
      foregroundColor := c.fgColor
      backgroundColor := c.bgColor } }

/-- `drawMouse`; none if it does not return. -/
def drawMouse (readInt16 : U32 → U16) (s : Screen S) (c : MouseCall) : Option (Screen S) :=
  match c.mode.toNat with
  | 0 | 4 => drawPointer (restoreMouseBackground s) c.x c.y
  | 1 | 5 => some s
  | 2 => some (restoreMouseBackground s)
  | 3 | 6 | 7 => drawPointer s c.x c.y
  | _ => some (changeShape readInt16 s c)

/-! ## Saved pixels -/

/-- The pixels that were saved, with their values. -/
def savedPixels (m : Mouse) : List (ℤ × BitVec (8 * S.bytes)) :=
  ((grid m.height.toNat m.width.toNat).filter fun c => S.Inside (m.x.toInt + c.2)
    (m.y.toInt + c.1)).map fun c =>
    (S.offset (m.x.toInt + c.2) (m.y.toInt + c.1), (m.background c.1 c.2).setWidth _)

theorem restore_eq (s : Screen S) :
    (restoreMouseBackground s).px = paint (fun v _ => v) (savedPixels s.mouse) s.px := by
  unfold restoreMouseBackground savedPixels
  dsimp only
  generalize s.px = px
  induction grid s.mouse.height.toNat s.mouse.width.toNat generalizing px with
  | nil => rfl
  | cons c cs ih =>
    rw [foldl_cons, ih]
    by_cases hin : S.Inside (s.mouse.x.toInt + c.2) (s.mouse.y.toInt + c.1)
    · simp [hsPutPixel, hin, paint_cons, dot]
    · simp [hsPutPixel, hin]

theorem nodup_savedPixels (m : Mouse) : ((savedPixels (S := S) m).map Prod.fst).Nodup := by
  unfold savedPixels
  rw [map_map]
  refine .map_on ?_ ((nodup_grid _ _).filter _)
  rintro ⟨i, j⟩ hc ⟨i', j'⟩ hc' heq
  simp only [mem_filter, decide_eq_true_eq] at hc hc'
  obtain ⟨hx, hy⟩ := S.offset_inj hc.2 hc'.2 heq
  simp only [Prod.mk.injEq]
  omega

theorem restore_of_saved {s : Screen S} {px : S.Pixels}
    (hsaved : ∀ d ∈ savedPixels s.mouse, d.2 = px d.1)
    (hkeep : ∀ o, o ∉ (savedPixels (S := S) s.mouse).map Prod.fst → s.px o = px o) :
    (restoreMouseBackground s).px = px := by
  rw [restore_eq]
  funext o
  by_cases ho : o ∈ (savedPixels (S := S) s.mouse).map Prod.fst
  · obtain ⟨d, hd, rfl⟩ := List.mem_map.1 ho
    rw [paint_apply_of_mem (nodup_savedPixels _) hd]
    exact hsaved d hd
  · rw [paint_apply_of_not_mem ho]
    exact hkeep o ho

theorem setWidth_pixel (v : BitVec (8 * S.bytes)) : (v.setWidth 32).setWidth (8 * S.bytes) = v := by
  have hle := S.bytes_le
  rw [setWidth_setWidth_of_le v (by omega), setWidth_eq]

theorem toInt_ofInt16 (v : ℤ) : (BitVec.ofInt 16 (int16 v)).toInt = int16 v := by
  have := int16_bounds v
  rw [toInt_ofInt]
  exact Int.bmod_eq_of_le (by omega) (by omega)

theorem toNat_ofInt16 {v : ℤ} (h0 : 0 ≤ v) (h : v < 0x8000) :
    (BitVec.ofInt 16 (int16 v)).toNat = v.toNat := by
  rw [int16_of_mem (by omega) h, toNat_ofInt]
  omega

section Save
variable (s : Screen S) (x y : ℤ) {w h : ℤ} (hw₀ : 0 ≤ w) (hw : w < 0x8000) (hh₀ : 0 ≤ h)
    (hh : h < 0x8000)
include hw₀ hw hh₀ hh

theorem mem_savedPixels_save {d : ℤ × BitVec (8 * S.bytes)} :
    d ∈ savedPixels (saveMouseBackground s x y w h).mouse ↔
      ∃ i j : ℕ, (i : ℤ) < h ∧ (j : ℤ) < w ∧ S.Inside (int16 x + j) (int16 y + i) ∧
        d = (S.offset (int16 x + j) (int16 y + i),
          s.px (S.offset (int16 x + j) (int16 y + i))) := by
  unfold savedPixels saveMouseBackground
  rw [toInt_ofInt16, toInt_ofInt16, toNat_ofInt16 hw₀ hw, toNat_ofInt16 hh₀ hh]
  simp only [mem_map, mem_filter, mem_grid, decide_eq_true_eq]
  constructor
  · rintro ⟨⟨i, j⟩, ⟨⟨hi, hj⟩, hin⟩, rfl⟩
    refine ⟨i, j, by omega, by omega, hin, ?_⟩
    rw [int16_of_mem (by omega) hw, int16_of_mem (by omega) hh, if_pos ⟨by omega, by omega⟩,
      hsGetPixel, if_pos hin, setWidth_pixel]
  · rintro ⟨i, j, hi, hj, hin, rfl⟩
    refine ⟨(i, j), ⟨⟨by omega, by omega⟩, hin⟩, ?_⟩
    rw [int16_of_mem (by omega) hw, int16_of_mem (by omega) hh, if_pos ⟨hi, hj⟩,
      hsGetPixel, if_pos hin, setWidth_pixel]

theorem restore_save {px : S.Pixels} (hkeep : ∀ o,
      (¬ ∃ i j : ℕ, (i : ℤ) < h ∧ (j : ℤ) < w ∧ S.Inside (int16 x + j) (int16 y + i) ∧
        o = S.offset (int16 x + j) (int16 y + i)) → px o = s.px o) :
    (restoreMouseBackground { saveMouseBackground s x y w h with px := px }).px = s.px := by
  refine restore_of_saved ?_ ?_
  · intro d hd
    obtain ⟨i, j, -, -, -, rfl⟩ := (mem_savedPixels_save s x y hw₀ hw hh₀ hh).1 hd
    rfl
  · intro o ho
    refine hkeep o ?_
    rintro ⟨i, j, hi, hj, hin, rfl⟩
    exact ho (List.mem_map.2
      ⟨_, (mem_savedPixels_save s x y hw₀ hw hh₀ hh).2 ⟨i, j, hi, hj, hin, rfl⟩, rfl⟩)

end Save

/-! ## Drawing -/

theorem clipAxis_bounds {v n : ℤ} (hn : 16 ≤ n) (h1 : -16 < v) (h2 : v < n) :
    0 ≤ (clipAxis v n).1 ∧ 0 < (clipAxis v n).2 ∧ (clipAxis v n).2 ≤ 16 ∧
      (clipAxis v n).1 + (clipAxis v n).2 ≤ n ∧ ((clipAxis v n).1 = v ∨ (clipAxis v n).1 = 0) := by
  unfold clipAxis
  split_ifs <;> dsimp only <;> omega

/-- The box of the pointer is drawn where its pixels have been saved. -/
theorem boxDots_saved {x y w h : ℤ} (hx0 : 0 ≤ x) (hw₀ : 0 ≤ w) (hxw : x + w ≤ S.width)
    (hy0 : 0 ≤ y) (hh₀ : 0 ≤ h) (hyh : y + h ≤ S.height) (hh : h < 0x8000)
    (hfit : 0x8000 ≤ S.pitch ∨ y < 0x8000) (p : Option (ℕ → U16)) :
    ∃ ds, boxDots S x y w h p = some ds ∧ ∀ d ∈ ds, ∃ i j : ℕ, (i : ℤ) < h ∧ (j : ℤ) < w ∧
      S.Inside (int16 x + j) (int16 y + i) ∧ d.1 = S.offset (int16 x + j) (int16 y + i) := by
  rcases lt_or_ge S.pitch 0x8000 with hp | hp
  · refine ⟨_, boxDots_eq hp hw₀ (by omega) hh₀ hh, fun d hd => ?_⟩
    obtain ⟨⟨i, j⟩, hc, rfl⟩ := List.mem_map.1 hd
    rw [mem_grid] at hc
    have hrow := S.row_le'
    have hb := S.bytes_pos
    have hwidth : (S.width : ℤ) ≤ S.bytes * S.width := le_mul_of_one_le_left (by omega) (by omega)
    rw [int16_of_mem (by omega) (show x < 0x8000 by omega),
      int16_of_mem (by omega) (show y < 0x8000 by omega)]
    exact ⟨i, j, by omega, by omega, ⟨by omega, by omega, by omega, by omega⟩, rfl⟩
  · exact ⟨[], boxDots_wide hp hh₀ hh, by simp⟩

/-- The vertical position fits into 16 bits, or the rows of the surface do not. -/
def DrawFits (s : Screen S) (y : ℤ) : Prop := 0x8000 ≤ S.pitch ∨ y - s.mouse.hotY.val < 0x8000

/-- The surface with the pointer on it, which is `px` without it. -/
def Shown (px : S.Pixels) (s : Screen S) : Prop := (restoreMouseBackground s).px = px

/-- Drawing the pointer shows it and saves what it covers. -/
theorem drawPointer_shown (hW : 64 ≤ S.width) (hH : 64 ≤ S.height) (s : Screen S) {x y : ℤ}
    (hin : S.Inside x y)
    (hfit : DrawFits s y) : ∃ s', drawPointer s x y = some s' ∧ Shown s.px s' := by
  obtain ⟨hx0, hx1, hy0, hy1⟩ := hin
  have cx := clipAxis_bounds (v := x - s.mouse.hotX.val) (n := S.width) (by omega)
    (by omega) (by omega)
  have cy := clipAxis_bounds (v := y - s.mouse.hotY.val) (n := S.height) (by omega)
    (by omega) (by omega)
  unfold drawPointer
  dsimp only
  generalize rolled s.mouse.mask _ _ = mm
  generalize rolled s.mouse.shape _ _ = md
  generalize clipAxis (x - s.mouse.hotX.val) S.width = ax at cx ⊢
  generalize clipAxis (y - s.mouse.hotY.val) S.height = ay at cy ⊢
  obtain ⟨x', w⟩ := ax
  obtain ⟨y', h⟩ := ay
  have hfit' : 0x8000 ≤ S.pitch ∨ y' < 0x8000 := by
    unfold DrawFits at hfit
    omega
  obtain ⟨ds, hds, hsub⟩ :=
    boxDots_saved (S := S) (x := x') (y := y') (w := w) (h := h) (by omega) (by omega) (by omega)
    (by omega) (by omega) (by omega) (by omega) hfit' mm
  obtain ⟨es, hes, hsub'⟩ :=
    boxDots_saved (S := S) (x := x') (y := y') (w := w) (h := h) (by omega) (by omega) (by omega)
    (by omega) (by omega) (by omega) (by omega) hfit' md
  have hpx : (saveMouseBackground s x' y' w h).px = s.px := rfl
  simp only [hsFillArea, hds, hes, hpx, Option.bind_eq_bind, Option.bind_some]
  refine ⟨_, rfl, ?_⟩
  refine restore_save s x' y' (by omega) (by omega) (by omega) (by omega) fun o ho => ?_
  have hout : ∀ l : List (ℤ × Bool), (∀ d ∈ l, ∃ i j : ℕ, (i : ℤ) < h ∧ (j : ℤ) < w ∧
      S.Inside (int16 x' + j) (int16 y' + i) ∧ d.1 = S.offset (int16 x' + j) (int16 y' + i)) →
      o ∉ l.map Prod.fst := by
    intro l hl hmem
    obtain ⟨d, hd, rfl⟩ := List.mem_map.1 hmem
    exact ho (hl d hd)
  rw [paint_apply_of_not_mem (hout es hsub'), paint_apply_of_not_mem (hout ds hsub)]

/-! ## Runs -/

/-- A call of `drawMouse`, and whether it returns. -/
def mouseStep (readInt16 : U32 → U16) (s : Screen S) (c : MouseCall) : Screen S × Bool :=
  match drawMouse readInt16 s c with
  | some s' => (s', true)
  | none => (s, false)

namespace MouseCall

/-- It is shown. -/
def IsShow (c : MouseCall) : Prop := c.mode = 3

/-- It is hidden. -/
def IsHide (c : MouseCall) : Prop := c.mode = 2

/-- Move shown. -/
def IsMove (c : MouseCall) : Prop := c.mode = 0 ∨ c.mode = 4

/-- Change of the shape. -/
def IsShape (c : MouseCall) : Prop := 7 < c.mode.toNat

end MouseCall

section
variable (readInt16 : U32 → U16) {s : Screen S} {c : MouseCall} {px : S.Pixels}

theorem drawMouse_show (h : c.IsShow) : drawMouse readInt16 s c = drawPointer s c.x c.y := by
  unfold drawMouse
  rw [h]
  rfl

theorem drawMouse_hide (h : c.IsHide) :
    drawMouse readInt16 s c = some (restoreMouseBackground s) := by
  unfold drawMouse
  rw [h]
  rfl

theorem drawMouse_move (h : c.IsMove) :
    drawMouse readInt16 s c = drawPointer (restoreMouseBackground s) c.x c.y := by
  unfold drawMouse
  rcases h with h | h <;> rw [h] <;> rfl

theorem drawMouse_shape (h : c.IsShape) :
    drawMouse readInt16 s c = some (changeShape readInt16 s c) := by
  unfold drawMouse MouseCall.IsShape at *
  split <;> first | omega | rfl

theorem shown_changeShape (h : Shown px s) : Shown px (changeShape readInt16 s c) := h

theorem mouseStep_of_some {s' : Screen S} (h : drawMouse readInt16 s c = some s') :
    mouseStep readInt16 s c = (s', true) := by
  rw [mouseStep, h]

variable (hW : 64 ≤ S.width) (hH : 64 ≤ S.height)
include hW hH

theorem shown_step (h : Shown px s) (hc : c.IsMove ∧ S.Inside c.x c.y ∨ c.IsShape)
    (hfit : c.IsMove → DrawFits s c.y) :
    Shown px (mouseStep readInt16 s c).1 ∧ (mouseStep readInt16 s c).2 = true := by
  rcases hc with ⟨hm, hin⟩ | hs
  · obtain ⟨s', hs', hshown⟩ := drawPointer_shown hW hH (restoreMouseBackground s) hin (hfit hm)
    rw [mouseStep_of_some readInt16 ((drawMouse_move readInt16 hm).trans hs')]
    rw [show (restoreMouseBackground s).px = px from h] at hshown
    exact ⟨hshown, rfl⟩
  · rw [mouseStep_of_some readInt16 (drawMouse_shape readInt16 hs)]
    exact ⟨shown_changeShape readInt16 h, rfl⟩

end

/-- **The pointer is transparent.**  It is shown at a position of the surface, moved to others and
    changed any number of times, and hidden: if the vertical position of the pointer fits into 16
    bits whenever it is drawn, every call returns and the surface is as before. -/
theorem pointer_transparent (hW : 64 ≤ S.width) (hH : 64 ≤ S.height) (readInt16 : U32 → U16)
    (s : Screen S) (first last : MouseCall) (calls : List MouseCall) (hshow : first.IsShow)
    (hin : S.Inside first.x first.y) (hcalls : ∀ c ∈ calls, c.IsMove ∧ S.Inside c.x c.y ∨ c.IsShape)
    (hhide : last.IsHide)
    (hfit : Along (mouseStep readInt16) (fun s c => c.IsShow ∨ c.IsMove →
      DrawFits s c.y) s (first :: calls)) :
    (run (mouseStep readInt16) s (first :: (calls ++ [last]))).px = s.px ∧
      ∀ b ∈ outputs (mouseStep readInt16) s (first :: (calls ++ [last])), b = true := by
  obtain ⟨hfirst, hrest⟩ := hfit
  obtain ⟨s₁, hs1, hshown⟩ := drawPointer_shown hW hH s hin (hfirst (.inl hshow))
  have hstep : mouseStep readInt16 s first = (s₁, true) :=
    mouseStep_of_some readInt16 ((drawMouse_show readInt16 hshow).trans hs1)
  rw [hstep] at hrest
  rw [run, outputs, hstep]
  have hall : ∀ (cs : List MouseCall) (t : Screen S),
    (∀ c ∈ cs, c.IsMove ∧ S.Inside c.x c.y ∨ c.IsShape) →
      Shown s.px t →
      Along (mouseStep readInt16) (fun s c => c.IsShow ∨ c.IsMove → DrawFits s c.y) t cs →
      (run (mouseStep readInt16) t (cs ++ [last])).px = s.px ∧
        ∀ b ∈ outputs (mouseStep readInt16) t (cs ++ [last]), b = true := by
    intro cs
    induction cs with
    | nil =>
      intro t _ ht _
      have hlast : mouseStep readInt16 t last = (restoreMouseBackground t, true) :=
        mouseStep_of_some readInt16 (drawMouse_hide readInt16 hhide)
      simp only [nil_append, run, outputs, hlast]
      exact ⟨ht, by simp⟩
    | cons c cs ih =>
      intro t hcs ht halong
      obtain ⟨ht', htrue⟩ := shown_step readInt16 hW hH ht (hcs c mem_cons_self)
        fun hm => halong.1 (.inr hm)
      obtain ⟨hpx, hout⟩ := ih _ (fun d hd => hcs d (mem_cons_of_mem _ hd)) ht' halong.2
      refine ⟨hpx, fun b hb => ?_⟩
      rcases List.mem_cons.1 hb with rfl | hb
      · exact htrue
      · exact hout b hb
  obtain ⟨hpx, hout⟩ := hall calls s₁ hcalls hshown hrest
  refine ⟨hpx, fun b hb => ?_⟩
  rcases List.mem_cons.1 hb with rfl | hb
  · rfl
  · exact hout b hb

/-- A pointer with a mask of 16 by 16 pixels in color 1, on an empty surface. -/
def squarePointer (S : Surface) : Screen S where
  mouse := ⟨0, 0, 0, 0, fun _ _ => 0, 1, 1, 0, 0, fun _ => 0xffff, fun _ => 0⟩
  px := fun _ => 0

/-- Without a new form. -/
def mouseCall (mode : U32) (x y : ℤ) : MouseCall := ⟨x, y, mode, 0, 0, 0, 0, 0⟩

theorem square_transparent :
    (run (mouseStep fun _ => 0) (squarePointer (plainSurface 64 64 (by decide)))
      [mouseCall 3 60 60, mouseCall 0 5 7, mouseCall 2 0 0]).px = fun _ => 0 :=
  (pointer_transparent (S := plainSurface 64 64 (by decide)) (by decide) (by decide) (fun _ => 0)
    (squarePointer _)
    (mouseCall 3 60 60) (mouseCall 2 0 0) [mouseCall 0 5 7] rfl (by decide)
    (by
      intro c hc
      rw [List.mem_singleton.1 hc]
      exact .inl ⟨.inl rfl, by decide⟩)
    rfl
    ⟨fun _ => .inr (by decide), fun _ => .inr (by
      have hy : (mouseCall 0 5 7).y = 7 := rfl
      omega), trivial⟩).1

/-- Below row 32767 the pointer is drawn, but other rows are saved. -/
theorem pointer_left_behind : (plainSurface 64 40000 (by decide)).Inside 10 39000 ∧
    (run (mouseStep fun _ => 0) (squarePointer (plainSurface 64 40000 (by decide)))
      [mouseCall 3 10 39000, mouseCall 2 0 0]).px ≠
        (squarePointer (plainSurface 64 40000 (by decide))).px := by
  refine ⟨by decide, fun h => ?_⟩
  have hdot := congrFun h ((plainSurface 64 40000 (by decide)).offset 10 39000)
  exact absurd hdot (by decide +kernel)

end Aranym.Vdi
