/-
  The surface that the NF VDI driver draws on (`nfvdi_soft.cpp`).

  The pixels of a surface lie at offsets from `sdl_surf->pixels`: `offset` is
  the one that position and pitch give.  A pixel is a cell at the offset of its
  first byte.  The loops of the driver step a pointer through the surface, so
  what they draw is a list of dots, offsets with a bit of the pattern.
-/
import Aranym.Lib.Raster
import Aranym.Lib.Words
import Mathlib.Tactic.Positivity
import Mathlib.Tactic.Ring

namespace Aranym.Vdi

open Lib List

/-- Conversion to `int16`. -/
def int16 (v : ℤ) : ℤ := (v + 0x8000) % 0x10000 - 0x8000

theorem int16_of_mem {v : ℤ} (h1 : -0x8000 ≤ v) (h2 : v < 0x8000) : int16 v = v := by
  unfold int16
  omega

theorem int16_bounds (v : ℤ) : -0x8000 ≤ int16 v ∧ int16 v < 0x8000 := by
  unfold int16
  omega

/-! ## Surfaces -/

/-- `BitsPerPixel` of the surface. -/
inductive Depth
  | bpp8 | bpp15 | bpp16 | bpp24 | bpp32
  deriving DecidableEq, Repr

/-- `BytesPerPixel`. -/
def Depth.bytes : Depth → ℕ
  | bpp8 => 1
  | bpp15 | bpp16 => 2
  | bpp24 => 3
  | bpp32 => 4

theorem Depth.bytes_pos (d : Depth) : 0 < d.bytes := by cases d <;> decide

theorem Depth.bytes_le (d : Depth) : d.bytes ≤ 4 := by cases d <;> decide

/-- The surface, with the width and height that the driver uses.  `pitch` is a `Uint16` of
    `SDL_Surface`. -/
structure Surface where
  depth : Depth
  width : ℕ
  height : ℕ
  pitch : ℕ
  row_le : depth.bytes * width ≤ pitch
  pitch_lt : pitch < 0x10000

namespace Surface

/-- The bytes of a pixel. -/
def bytes (S : Surface) : ℕ := S.depth.bytes

/-- What the surface shows. -/
abbrev Pixels (S : Surface) : Type := ℤ → BitVec (8 * S.bytes)

/-- The offset of a pixel. -/
def offset (S : Surface) (x y : ℤ) : ℤ := y * S.pitch + x * S.bytes

/-- The point is on it. -/
def Inside (S : Surface) (x y : ℤ) : Prop := 0 ≤ x ∧ x < S.width ∧ 0 ≤ y ∧ y < S.height
deriving Decidable

variable (S : Surface)

theorem bytes_pos : (0 : ℤ) < S.bytes := by
  have := S.depth.bytes_pos
  unfold bytes
  omega

theorem bytes_le : (S.bytes : ℤ) ≤ 4 := by
  have := S.depth.bytes_le
  unfold bytes
  omega

theorem row_le' : (S.bytes : ℤ) * S.width ≤ S.pitch := by
  have := S.row_le
  exact_mod_cast this

theorem column_bounds {x : ℤ} (h1 : 0 ≤ x) (h2 : x < S.width) :
    0 ≤ x * S.bytes ∧ x * S.bytes < S.pitch :=
  row_bounds S.bytes_pos S.row_le' h1 h2

theorem offset_inj {x y x' y' : ℤ} (h : S.Inside x y) (h' : S.Inside x' y')
    (heq : S.offset x y = S.offset x' y') : x = x' ∧ y = y' :=
  row_inj S.bytes_pos S.row_le' h.1 h.2.1 h'.1 h'.2.1 heq

/-! ## Pixels -/

variable {S} (px : S.Pixels)

/-- Reads a pixel. -/
def hsGetPixel (x y : ℤ) : U32 := if S.Inside x y then (px (S.offset x y)).setWidth 32 else 0

/-- Writes a pixel. -/
def hsPutPixel (x y : ℤ) (color : U32) : S.Pixels :=
  if S.Inside x y then Function.update px (S.offset x y) (color.setWidth _) else px

/-- What the writing mode does to a pixel, for a bit of the pattern. -/
def plot (logOp : U16) (fgColor bgColor : U32) (bit : Bool) (old : BitVec (8 * S.bytes)) :
    BitVec (8 * S.bytes) :=
  match logOp.toNat with
  | 1 => (if bit then fgColor else bgColor).setWidth _
  | 2 => if bit then fgColor.setWidth _ else old
  | 3 => if bit then ~~~old else old
  | 4 => if bit then old else fgColor.setWidth _
  | _ => old

/-! ## Boxes -/

/-- A bit of a pattern line. -/
def patternBit (pattern : U16) (i : ℤ) : Bool := pattern.getLsbD (i % 16).toNat

/-- The line of the pattern for a row. -/
def patternLine (areaPattern : Option (ℕ → U16)) (y : ℤ) : U16 :=
  match areaPattern with
  | some p => p (y % 16).toNat
  | none => 0xffff

/-- One row of a box: `dx` pixels from the offset `pixel` on. -/
def boxRow (S : Surface) (areaPattern : Option (ℕ → U16)) (x dx pixel y : ℤ) : List (ℤ × Bool) :=
  (range dx.toNat).map fun i : ℕ =>
    (pixel + S.bytes * i, patternBit (patternLine areaPattern y) (x + i))

/-- The rows of a box until `pixel` reaches `pixellast`; none if that does not happen. -/
def boxRows (S : Surface) (areaPattern : Option (ℕ → U16)) (x dx skip pixellast : ℤ) :
    ℕ → ℤ → ℤ → Option (List (ℤ × Bool))
  | 0, pixel, _ => if pixellast ≤ pixel then some [] else none
  | fuel + 1, pixel, y =>
    if pixellast ≤ pixel then some []
    else do
      let rest ← boxRows S areaPattern x dx skip pixellast fuel
        (pixel + S.bytes * dx.toNat + skip) (y + 1)
      some (boxRow S areaPattern x dx pixel y ++ rest)

/-- The dots of `hsGfxBoxColorPattern`.  The pitch and the size of the box are converted to
    `int16`. -/
def boxDots (S : Surface) (x y w h : ℤ) (areaPattern : Option (ℕ → U16)) :
    Option (List (ℤ × Bool)) :=
  let dx := int16 w
  let dy := int16 h
  let pixy := int16 S.pitch
  let pixel := S.bytes * x + pixy * y
  let pixellast := pixel + pixy * dy
  let skip := int16 (pixy - S.bytes * dx)
  boxRows S areaPattern x dx skip pixellast (pixellast - pixel).toNat pixel y

/-- Fills an area. -/
def hsFillArea (x y w h : ℤ) (pattern : Option (ℕ → U16)) (fgColor bgColor : U32) (logOp : U16) :
    Option S.Pixels := do
  let dots ← boxDots S x y w h pattern
  some (paint (plot logOp fgColor bgColor) dots px)

section
variable {areaPattern : Option (ℕ → U16)} {x y w h : ℤ}

theorem boxRows_of_le {dx skip pixellast pixel : ℤ} (hle : pixellast ≤ pixel) (fuel : ℕ) :
    boxRows S areaPattern x dx skip pixellast fuel pixel y = some [] := by
  cases fuel <;> simp [boxRows, hle]

theorem boxRows_eq {dx skip P : ℤ} (hstep : S.bytes * dx.toNat + skip = P) (hP : 0 < P)
    {pixellast : ℤ} :
    ∀ (r fuel : ℕ) (pixel y : ℤ), r ≤ fuel → pixellast = pixel + P * r →
      boxRows S areaPattern x dx skip pixellast fuel pixel y =
        some ((range r).flatMap fun i : ℕ => boxRow S areaPattern x dx (pixel + P * i) (y + i))
  | 0, fuel, pixel, y, _, hl => boxRows_of_le (by simp [hl]) fuel
  | r + 1, 0, pixel, y, hf, _ => absurd hf (by omega)
  | r + 1, fuel + 1, pixel, y, hf, hl => by
    have hnext : pixel + S.bytes * dx.toNat + skip = pixel + P := by rw [← hstep, add_assoc]
    have hrest : pixellast = pixel + P + P * r := by rw [hl]; push_cast; ring
    have ih := boxRows_eq hstep hP r fuel (pixel + P) (y + 1) (by omega) hrest
    have hlt : ¬ pixellast ≤ pixel := by
      rw [hl]
      have : 0 < P * ((r : ℤ) + 1) := mul_pos hP (by positivity)
      push_cast
      omega
    rw [boxRows, if_neg hlt, hnext, ih]
    simp only [Option.bind_eq_bind, Option.bind_some, Option.some.injEq]
    rw [range_succ_eq_map, flatMap_cons, flatMap_map]
    congr 1
    · simp
    · refine flatMap_congr fun i _ => ?_
      push_cast
      ring_nf

theorem boxDots_eq (hp : S.pitch < 0x8000) (hw₀ : 0 ≤ w) (hw : w ≤ S.width) (hh0 : 0 ≤ h)
    (hh : h < 0x8000) :
    boxDots S x y w h areaPattern = some ((grid h.toNat w.toNat).map fun c =>
      (S.offset (x + c.2) (y + c.1), patternBit (patternLine areaPattern (y + c.1))
        (x + c.2))) := by
  have hr := S.row_le'
  have hb := S.bytes_pos
  have hle : S.bytes * w ≤ S.pitch := (mul_le_mul_of_nonneg_left hw hb.le).trans hr
  have hone : w ≤ S.bytes * w := le_mul_of_one_le_left hw₀ (by omega)
  have hdx : int16 w = w := int16_of_mem (by omega) (by omega)
  have hdy : int16 h = h := int16_of_mem (by omega) hh
  have hpitch : int16 S.pitch = S.pitch := int16_of_mem (by omega) (by omega)
  have hskip : int16 (S.pitch - S.bytes * w) = S.pitch - S.bytes * w :=
    int16_of_mem (by omega) (by omega)
  have hcast : ((h.toNat : ℕ) : ℤ) = h := Int.toNat_of_nonneg hh0
  have hrow : ∀ i : ℕ, boxRow S areaPattern x w (S.bytes * x + S.pitch * y + S.pitch * i) (y + i) =
      (range w.toNat).map fun j : ℕ =>
        (S.offset (x + j) (y + i), patternBit (patternLine areaPattern (y + i)) (x + j)) := by
    intro i
    refine map_congr_left fun j _ => Prod.ext ?_ rfl
    show _ = (y + i) * (S.pitch : ℤ) + (x + j) * S.bytes
    ring
  unfold boxDots
  dsimp only
  rw [hdx, hdy, hpitch, hskip]
  by_cases hzero : S.pitch = 0
  · -- without columns there is nothing to draw
    have hw0 : w = 0 := by omega
    have hempty : (grid h.toNat w.toNat) = [] := by simp [hw0, grid]
    rw [hempty, boxRows_of_le (by simp [hzero])]
    rfl
  · have hP : (0 : ℤ) < S.pitch := by omega
    have hfuel : h.toNat ≤
        (S.bytes * x + S.pitch * y + S.pitch * h - (S.bytes * x + S.pitch * y)).toNat := by
      have : h ≤ S.pitch * h := le_mul_of_one_le_left hh0 (by omega)
      omega
    rw [boxRows_eq (r := h.toNat) (P := S.pitch)
      (by rw [Int.toNat_of_nonneg hw₀]; ring) hP _ _ _ hfuel
      (by rw [hcast])]
    simp only [hrow, grid, map_flatMap, map_map]
    rfl

theorem boxDots_wide (hp : 0x8000 ≤ S.pitch) (hh0 : 0 ≤ h) (hh : h < 0x8000) :
    boxDots S x y w h areaPattern = some [] := by
  have hlt := S.pitch_lt
  have hdy : int16 h = h := int16_of_mem (by omega) hh
  have hneg : int16 S.pitch < 0 := by unfold int16; omega
  unfold boxDots
  rw [hdy, boxRows_of_le (by nlinarith)]

end

end Surface

/-- A surface with 8 bits per pixel, without padding. -/
def plainSurface (width height : ℕ) (h : width < 0x10000) : Surface where
  depth := .bpp8
  width := width
  height := height
  pitch := width
  row_le := by simp [Depth.bytes]
  pitch_lt := h

end Aranym.Vdi
