/-
  Expansion of monochrome bitmaps (`VdiDriver::expandArea`).

  A monochrome bitmap is drawn into a memory bitmap in two colours, in one of
  four writing modes.  Pixels of 16, 24 and 32 bits are changed one by one.
  Bit planes are changed in a window of 16 chunky pixels, which is written back
  and loaded again wherever a group of the *source* begins, and in which a pixel
  has its place in the group of the source.  So the window shows the right
  pixels if source and target lie alike in their groups.
-/
import Aranym.Vdi.Planes

namespace Aranym.Vdi

open Lib List Function
open List (range)

/-! ## The driver -/

/-- What the writing mode does to a pixel, for a bit of the source. -/
def expandPixel {n : ℕ} (logOp fgColor bgColor : U32) (bit : Bool) (old : BitVec n) : BitVec n :=
  match logOp.toNat with
  | 1 => (if bit then fgColor else bgColor).setWidth n
  | 2 => if bit then fgColor.setWidth n else old
  | 3 => if bit then ~~~old else old
  | 4 => if bit then old else bgColor.setWidth n
  | _ => old

/-- Colours for a screen with 8 bits per pixel. -/
def maskColor (bpp8 : Bool) (color : U32) : U32 := if bpp8 then color &&& 0xff else color

/-- The parameters of `expandArea` beside the place, with the source. -/
structure Expansion where
  M₀ : Mfdb (.planes .one)
  src : ℤ → U16
  q : Blit
  fgColor : U32
  bgColor : U32

namespace Expansion

variable (E : Expansion)

/-- `pitch` of the source, a `uint16`. -/
def pitch : ℤ := (E.M₀.wdwidth * 2) % 0x10000

/-- The word of the source for `i`, in row `j`. -/
def word (j : ℕ) (i : ℤ) : U16 :=
  E.src (uint32 (E.q.sy * E.pitch + j * E.pitch + i / 8 % 0x10000 / 2 * 2))

/-- The value of the loop counter, a `uint16`. -/
def counter (k : ℕ) : ℤ := (E.q.sx + k) % 0x10000

/-- With the colours that are used. -/
def masked (bpp8 : Bool) : Expansion :=
  { E with fgColor := maskColor bpp8 E.fgColor, bgColor := maskColor bpp8 E.bgColor }

/-- The bit for `i` in `theWord`. -/
def wordBit (theWord : U16) (i : ℤ) : Bool := theWord.getLsbD (15 - i % 16).toNat

end Expansion

namespace Mfdb

/-- A round of the loops for 16, 24 and 32 bits, with `theWord` and the memory. -/
def expandStep {b : Deep} (M : Mfdb (.deep b)) (E : Expansion) (j : ℕ) (st : U16 × M.Memory)
    (k : ℕ) : U16 × M.Memory :=
  let i := E.counter k
  let offset := uint32 ((E.q.dx + i - E.q.sx) * b.bytes + (E.q.dy + j) * M.pitch)
  let theWord := if i % 16 = 0 then E.word j i else st.1
  (theWord, update st.2 offset
    (expandPixel E.q.logOp E.fgColor E.bgColor (Expansion.wordBit theWord i) (st.2 offset)))

/-- One row. -/
def expandRow {b : Deep} (M : Mfdb (.deep b)) (E : Expansion) (mem : M.Memory) (j : ℕ) : M.Memory :=
  ((List.range E.q.w.toNat).foldl (M.expandStep E j) (E.word j E.q.sx, mem)).2

end Mfdb

/-- The variables of the loops for planes. -/
structure Window where
  address : ℤ
  color : ℕ → U8
  bitplanePixels : Words
  theWord : U16
  mem : ℤ → U16

namespace Window

variable {P : Planes} (M : Mfdb (.planes P)) (E : Expansion)

/-- The window is written back. -/
def flush (W : Window) : Window :=
  let bitplanePixels := chunkyToBitplane W.color W.bitplanePixels
  { W with bitplanePixels := bitplanePixels, mem := M.writeWords W.address bitplanePixels W.mem }

/-- The window is loaded. -/
def load (address : ℤ) (W : Window) : Window :=
  { W with address := address, color := bitplaneToChunky (M.readWords address W.mem) P.count }

/-- A pixel of the window is changed. -/
def change (i : ℤ) (W : Window) : Window :=
  let l := (i % 16).toNat
  let pixel := expandPixel E.q.logOp E.fgColor E.bgColor (Expansion.wordBit W.theWord i) (W.color l)
  { W with color := update W.color l pixel }

/-- A round of the loop of a row. -/
def step (j : ℕ) (W : Window) (k : ℕ) : Window :=
  let i := E.counter k
  if i % 16 = 0 then
    let W' := load M (M.groupOffset ((E.q.dx + i - E.q.sx) / 16) (E.q.dy + j)) (flush M W)
    change E i { W' with theWord := E.word j i }
  else change E i W

/-- A row begins with the group of `dx`. -/
def start (j : ℕ) (W : Window) : Window :=
  { load M (M.groupOffset (E.q.dx / 16) (E.q.dy + j)) W with theWord := E.word j E.q.sx }

/-- One row. -/
def row (W : Window) (j : ℕ) : Window :=
  flush M ((List.range E.q.w.toNat).foldl (step M E j) (start M E j W))

end Window

/-- `VdiDriver::expandArea`.  `color` is not initialized; `bpp8` says that the screen has 8 bits per
    pixel. -/
def Mfdb.expandArea (bpp8 : Bool) (color : ℕ → U8) (E : Expansion) :
    {d : MfdbDepth} → (M : Mfdb d) → M.Memory → M.Memory
  | .planes _, M, mem =>
    ((List.range E.q.h.toNat).foldl (Window.row M (E.masked bpp8))
      ⟨0, color, fun _ => 0, 0, mem⟩).mem
  | .deep _, M, mem =>
    (List.range E.q.h.toNat).foldl (M.expandRow (E.masked bpp8)) mem

/-! ## The source -/

namespace Expansion

variable {E : Expansion} {j k : ℕ}

/-- The bit of the source for a pixel. -/
def bit (E : Expansion) (x y : ℤ) : Bool := E.M₀.planar.bit E.src x y 0

/-- What is demanded of a pixel. -/
def expected (E : Expansion) (i j : ℤ) (old : U32) : U32 :=
  expandPixel E.q.logOp E.fgColor E.bgColor (E.bit (E.q.sx + i) (E.q.sy + j)) old

variable (hsrc : E.M₀.Holds E.q.source)
include hsrc

theorem counter_eq (hk : k < E.q.w.toNat) : E.counter k = E.q.sx + k := by
  obtain ⟨hx0, -, hx, -⟩ := hsrc
  have hlt := E.M₀.width_lt
  simp only [Blit.source] at hx0 hx
  unfold counter
  omega

theorem word_eq (hj : j < E.q.h.toNat) {i : ℤ} (hi0 : 0 ≤ i) (hi : i < E.M₀.width) :
    E.word j i = E.src (E.M₀.groupOffset (i / 16) (E.q.sy + j) + 2 * (0 : ℕ)) := by
  obtain ⟨-, -, -, hy0, -, hy⟩ := hsrc
  have hwd := E.M₀.wdwidth_lt
  have hle := E.M₀.width_le
  simp only [Blit.source] at hy0 hy
  have hgroup : E.M₀.HasGroup (i / 16) (E.q.sy + j) := ⟨by omega, by omega, by omega, by omega⟩
  have hpitch : E.pitch = E.M₀.pitch := by
    simp only [pitch, Mfdb.pitch, MfdbDepth.nplanes, Planes.count]
    omega
  have hoffset : E.q.sy * E.pitch + j * E.pitch + i / 8 % 0x10000 / 2 * 2 =
      E.M₀.groupOffset (i / 16) (E.q.sy + j) + 2 * (0 : ℕ) := by
    have hi16 : i / 8 % 0x10000 / 2 * 2 = i / 16 * 2 := by omega
    rw [hi16, hpitch, Mfdb.groupOffset, Planes.count]
    ring
  rw [word, hoffset, Mfdb.uint32_groupOffset hgroup Planes.one.count_pos]

/-- The word that a round uses: the old one, unless a group begins. -/
theorem reload (hj : j < E.q.h.toNat) (hk : k < E.q.w.toNat) :
    (if (E.q.sx + k) % 16 = 0 then E.word j (E.q.sx + k) else E.word j (E.q.sx + (k - 1 : ℕ))) =
      E.word j (E.q.sx + k) := by
  obtain ⟨hx0, -, hx, -⟩ := id hsrc
  simp only [Blit.source] at hx0 hx
  split_ifs with h
  · rfl
  · rw [word_eq hsrc hj (by omega) (by omega), word_eq hsrc hj (by omega) (by omega),
      show (E.q.sx + (k - 1 : ℕ)) / 16 = (E.q.sx + k) / 16 by omega]

theorem wordBit_word (hj : j < E.q.h.toNat) (hk : k < E.q.w.toNat) :
    wordBit (E.word j (E.q.sx + k)) (E.q.sx + k) = E.bit (E.q.sx + k) (E.q.sy + j) := by
  obtain ⟨hx0, -, hx, -⟩ := id hsrc
  simp only [Blit.source] at hx0 hx
  rw [wordBit, word_eq hsrc hj (by omega) (by omega), bit, Mfdb.bit_planes]

end Expansion

theorem getLsbD_expandPixel_congr {n n' : ℕ} {logOp fgColor bgColor : U32} {bit : Bool}
    {old : BitVec n}
    {old' : BitVec n'} {b : ℕ} (hb : b < n) (hb' : b < n') (h : old.getLsbD b = old'.getLsbD b) :
    (expandPixel logOp fgColor bgColor bit old).getLsbD b =
      (expandPixel logOp fgColor bgColor bit old').getLsbD b := by
  unfold expandPixel
  split <;> cases bit <;>
    simp only [BitVec.getLsbD_setWidth, BitVec.getLsbD_not, hb, hb', h, reduceIte,
      Bool.false_eq_true]

theorem expandPixel_setWidth {n : ℕ} (hn : n ≤ 32) (logOp fgColor bgColor : U32) (bit : Bool)
    (old : BitVec n) :
    expandPixel logOp fgColor bgColor bit old =
      (expandPixel logOp fgColor bgColor bit (old.setWidth 32)).setWidth n := by
  refine BitVec.eq_of_getLsbD_eq fun b hb => ?_
  have hb32 : b < 32 := by omega
  rw [BitVec.getLsbD_setWidth, decide_eq_true hb, Bool.true_and]
  refine getLsbD_expandPixel_congr hb hb32 ?_
  rw [BitVec.getLsbD_setWidth, decide_eq_true hb32, Bool.true_and]

/-! ## Pixels of 16, 24 and 32 bits -/

section
variable {b : Deep} {M : Mfdb (.deep b)} {E : Expansion}

/-- The pixels of a row with the bits of the source. -/
def deepDots (M : Mfdb (.deep b)) (E : Expansion) (n j : ℕ) : List (ℤ × Bool) :=
  (List.range n).map fun (k : ℕ) =>
    ((E.q.dy + j) * M.pitch + (E.q.dx + k) * b.bytes, E.bit (E.q.sx + k) (E.q.sy + j))

theorem foldl_expandStep (hsrc : E.M₀.Holds E.q.source) (htgt : M.Holds E.q.target) {j : ℕ}
    (hj : j < E.q.h.toNat) (mem : M.Memory) :
    ∀ n ≤ E.q.w.toNat, (range n).foldl (M.expandStep E j) (E.word j E.q.sx, mem) =
      (E.word j (E.q.sx + (n - 1 : ℕ)),
        paint (expandPixel E.q.logOp E.fgColor E.bgColor) (deepDots M E n j) mem)
  | 0, _ => by simp [deepDots, paint]
  | k + 1, hk => by
    have hgrid : (j, k) ∈ grid E.q.h.toNat E.q.w.toNat := mem_grid.2 ⟨hj, hk⟩
    have hoffset := Mfdb.uint32_deep (htgt.bitmap.inside (target_contains hgrid))
    have hoffset' : (E.q.dx + (E.q.sx + k) - E.q.sx) * (b.bytes : ℤ) + (E.q.dy + j) * M.pitch =
        (E.q.dy + j) * M.pitch + (E.q.dx + k) * b.bytes := by ring
    rw [range_succ, foldl_append, foldl_expandStep hsrc htgt hj mem k (by omega), foldl_cons,
      foldl_nil, Mfdb.expandStep, Expansion.counter_eq hsrc hk, hoffset', hoffset]
    dsimp only
    rw [Expansion.reload hsrc hj hk, Expansion.wordBit_word hsrc hj hk, Nat.add_sub_cancel,
      deepDots, deepDots, range_succ, map_append, paint_append]
    rfl

/-- Into a chunky block the area is expanded pixel by pixel. -/
theorem expandArea_deep (hsrc : E.M₀.Holds E.q.source) (htgt : M.Holds E.q.target)
    (mem : M.Memory) :
    M.bitmap.Changed E.q.target E.expected mem ((range E.q.h.toNat).foldl (M.expandRow E) mem) := by
  let f : Bool → BitVec (MfdbDepth.deep b).cellBits → BitVec (MfdbDepth.deep b).cellBits :=
    expandPixel E.q.logOp E.fgColor E.bgColor
  let v : ℕ × ℕ → Bool := fun p => E.bit (E.q.sx + p.2) (E.q.sy + p.1)
  have hrows : (range E.q.h.toNat).foldl (M.expandRow E) mem =
      (range E.q.h.toNat).foldl (fun mem j => paint f (deepDots M E E.q.w.toNat j) mem) mem := by
    refine foldl_ext _ _ _ fun mem j hj => ?_
    rw [Mfdb.expandRow, foldl_expandStep hsrc htgt (List.mem_range.1 hj) mem _ le_rfl]
  have hdots : (range E.q.h.toNat).flatMap (deepDots M E E.q.w.toNat) =
      Bitmap.areaDots b.bytes M.pitch E.q.target v := by
    simp only [Bitmap.areaDots, grid, map_flatMap, map_map]
    rfl
  have hpaint : (range E.q.h.toNat).foldl
    (fun mem j => paint f (deepDots M E E.q.w.toNat j) mem) mem =
      paint f ((range E.q.h.toNat).flatMap (deepDots M E E.q.w.toNat)) mem :=
    List.foldl_flatMap.symm
  rw [hrows, hpaint, hdots]
  exact Mfdb.changed_deep htgt.bitmap (fun p old => expandPixel_setWidth b.bits_le _ _ _ _ old) mem

end

/-! ## The window -/

namespace Expansion

/-- The group of the target that is in the window in round `k`: the one that was loaded where a
    group of the source began, or else the first. -/
def group (E : Expansion) (k : ℕ) : ℤ :=
  if (E.q.sx + k) % 16 ≤ k then (E.q.dx + k - (E.q.sx + k) % 16) / 16 else E.q.dx / 16

/-- The column that round `k` changes. -/
def column (E : Expansion) (k : ℕ) : ℤ := 16 * E.group k + (E.q.sx + k) % 16

variable {E : Expansion}

theorem column_eq (h : (E.q.dx - E.q.sx) % 16 = 0) (k : ℕ) : E.column k = E.q.dx + k := by
  unfold column group
  split_ifs <;> omega

theorem column_zero : E.column 0 = E.q.dx / 16 * 16 + E.q.sx % 16 := by
  unfold column group
  split_ifs <;> omega

theorem group_zero : E.group 0 = E.q.dx / 16 := by
  unfold group
  split_ifs <;> omega

theorem group_pred {k : ℕ} (h : (E.q.sx + k) % 16 ≠ 0) : E.group (k - 1) = E.group k := by
  unfold group
  split_ifs <;> omega

theorem group_of_begin {k : ℕ} (h : (E.q.sx + k) % 16 = 0) : E.group k = (E.q.dx + k) / 16 := by
  unfold group
  rw [h, if_pos (Int.natCast_nonneg k), sub_zero]

theorem hasGroup {P : Planes} {M : Mfdb (.planes P)} (htgt : M.Holds E.q.target) {j k : ℕ}
    (hj : j < E.q.h.toNat) (hk : k < E.q.w.toNat) : M.HasGroup (E.group k) (E.q.dy + j) := by
  obtain ⟨h1, h2, h3, h4, h5, h6⟩ := htgt
  have hle := M.width_le
  simp only [Blit.target] at h1 h2 h3 h4 h5 h6
  refine ⟨?_, ?_, by omega, by omega⟩ <;> unfold group <;> split_ifs <;> omega

end Expansion

namespace Window

variable {P : Planes} {M : Mfdb (.planes P)} {E : Expansion} {W : Window}

/-- The memory with the window written back. -/
def view (M : Mfdb (.planes P)) (W : Window) : ℤ → U16 :=
  M.writeWords W.address (planeWord W.color) W.mem

theorem flush_mem : (flush M W).mem = view M W := by
  have hwords : chunkyToBitplane W.color W.bitplanePixels = planeWord W.color :=
    funext fun p => chunkyToBitplane_eq _ _ p
  rw [flush, hwords]
  rfl

theorem view_load (address : ℤ) : view M (load M address W) = W.mem :=
  Mfdb.writeWords_own fun _ hd => planeWord_bitplaneToChunky P _ hd

theorem view_change {g y i : ℤ} (hgroup : M.HasGroup g y)
    (haddress : W.address = M.groupOffset g y) :
    view M (change E i W) = M.planar.put (view M W) (16 * g + i % 16) y
      (expandPixel E.q.logOp E.fgColor E.bgColor (Expansion.wordBit W.theWord i)
        (M.planar.pixel (view M W) (16 * g + i % 16) y)) := by
  have hg : (16 * g + i % 16) / 16 = g := by omega
  have hl : (16 * g + i % 16) % 16 = i % 16 := by omega
  have hin := hgroup.inside hg
  funext a
  refine BitVec.eq_of_getLsbD_eq fun t ht => ?_
  by_cases ha : ∃ d < P.count, M.groupOffset g y + 2 * d = a
  · obtain ⟨d, hd, rfl⟩ := ha
    have hnew : view M (change E i W) (M.groupOffset g y + 2 * d) =
        planeWord (change E i W).color d := by
      rw [view, show (change E i W).address = M.groupOffset g y from haddress]
      exact Mfdb.writeWords_apply hgroup _ _ hd
    have hold : view M W (M.groupOffset g y + 2 * d) = planeWord W.color d := by
      rw [view, haddress]
      exact Mfdb.writeWords_apply hgroup _ _ hd
    rw [hnew, getLsbD_planeWord _ _ ht]
    by_cases htl : 15 - t = (i % 16).toNat
    · -- the pixel itself
      have hput :=
        Bitmap.bit_put_self (m := view M W) hin (v := expandPixel E.q.logOp E.fgColor E.bgColor
        (Expansion.wordBit W.theWord i) (M.planar.pixel (view M W) (16 * g + i % 16) y)) hd
      rw [Mfdb.bit_planes, hg, hl, show (15 - i % 16).toNat = t by omega] at hput
      refine .trans ?_ hput.symm
      rw [htl]
      show (update W.color _ _ _).getLsbD d = _
      rw [update_self]
      refine getLsbD_expandPixel_congr (hd.trans_le P.count_le) (by have := P.count_le; omega) ?_
      rw [Bitmap.getLsbD_pixel _ _ _ _ hd, Mfdb.bit_planes, hg, hl, hold,
        getLsbD_planeWord _ _ (by omega), show 15 - (15 - i % 16).toNat = (i % 16).toNat by omega]
    · -- another pixel of the group
      rw [Bitmap.getLsbD_put_of_not ht, hold, getLsbD_planeWord _ _ ht]
      · show (update W.color _ _ _).getLsbD d = _
        rw [update_of_ne htl]
      · rintro d' - ⟨-, hpos⟩
        rw [Mfdb.pos_planes, hl] at hpos
        omega
  · have hno : ∀ d < P.count, M.groupOffset g y + 2 * d ≠ a := fun d hd heq => ha ⟨d, hd, heq⟩
    have hnew : view M (change E i W) a = W.mem a := by
      rw [view, show (change E i W).address = M.groupOffset g y from haddress]
      exact Mfdb.writeWords_of_ne hgroup _ _ hno
    have hold : view M W a = W.mem a := by
      rw [view, haddress]
      exact Mfdb.writeWords_of_ne hgroup _ _ hno
    rw [hnew, Bitmap.getLsbD_put_of_not ht, hold]
    rintro d hd ⟨hcell, -⟩
    rw [Mfdb.cell_planes, hg] at hcell
    exact hno d hd hcell

/-- A round sets a pixel in what the window shows. -/
def putRound (M : Mfdb (.planes P)) (E : Expansion) (m : ℤ → U16) (p : ℕ × ℕ) : ℤ → U16 :=
  M.planar.put m (E.column p.2) (E.q.dy + p.1)
    (E.expected p.2 p.1 (M.planar.pixel m (E.column p.2) (E.q.dy + p.1)))

/-- What holds after `n` rounds of a row. -/
structure Shows (M : Mfdb (.planes P)) (E : Expansion) (j n : ℕ) (m : ℤ → U16)
    (W : Window) : Prop where
  theWord : W.theWord = E.word j (E.q.sx + (n - 1 : ℕ))
  address : W.address = M.groupOffset (E.group (n - 1)) (E.q.dy + j)
  view : Window.view M W = m

theorem start_shows (j : ℕ) : Shows M E j 0 W.mem (start M E j W) where
  theWord := by simp [start]
  address := by rw [Nat.zero_sub, Expansion.group_zero]; rfl
  view := view_load _

variable (hsrc : E.M₀.Holds E.q.source) (htgt : M.Holds E.q.target)
include hsrc htgt

theorem step_shows {j k : ℕ} (hj : j < E.q.h.toNat) (hk : k < E.q.w.toNat) {m : ℤ → U16}
    (h : Shows M E j k m W) : Shows M E j (k + 1) (putRound M E m (j, k)) (step M E j W k) := by
  have hgroup := Expansion.hasGroup htgt hj hk
  -- the change, whatever was done to the window before
  have hchange : ∀ W' : Window, W'.theWord = E.word j (E.q.sx + k) →
      W'.address = M.groupOffset (E.group k) (E.q.dy + j) → Window.view M W' = m →
      Shows M E j (k + 1) (putRound M E m (j, k)) (change E (E.q.sx + k) W') := by
    intro W' hword haddress hview
    refine ⟨hword, haddress, ?_⟩
    rw [view_change hgroup haddress, hview, hword, Expansion.wordBit_word hsrc hj hk]
    rfl
  have hreload := Expansion.reload hsrc hj hk
  rw [step, Expansion.counter_eq hsrc hk]
  split_ifs with hbegin
  · refine hchange _ rfl ?_ ?_
    · rw [Expansion.group_of_begin hbegin,
        show E.q.dx + (E.q.sx + k) - E.q.sx = E.q.dx + (k : ℤ) by ring]
      rfl
    · exact (view_load _).trans (flush_mem.trans h.view)
  · rw [if_neg hbegin] at hreload
    refine hchange W (h.theWord.trans hreload) ?_ h.view
    rw [h.address, Expansion.group_pred hbegin]

theorem foldl_step_shows {j : ℕ} (hj : j < E.q.h.toNat) :
    ∀ n ≤ E.q.w.toNat, Shows M E j n ((range n).foldl (fun m k => putRound M E m (j, k)) W.mem)
      ((range n).foldl (step M E j) (start M E j W))
  | 0, _ => start_shows j
  | k + 1, hk => by
    rw [range_succ, foldl_append, foldl_append]
    exact step_shows hsrc htgt hj hk (foldl_step_shows hj k (by omega))

theorem row_mem {j : ℕ} (hj : j < E.q.h.toNat) :
    (row M E W j).mem = (range E.q.w.toNat).foldl (fun m k => putRound M E m (j, k)) W.mem :=
  flush_mem.trans (foldl_step_shows hsrc htgt hj _ le_rfl).view

theorem rows_mem :
    ((range E.q.h.toNat).foldl (row M E) W).mem =
      (grid E.q.h.toNat E.q.w.toNat).foldl (putRound M E) W.mem := by
  have hrows : ∀ n ≤ E.q.h.toNat, ((range n).foldl (row M E) W).mem =
      (range n).foldl
        (fun m j => (range E.q.w.toNat).foldl (fun m k => putRound M E m (j, k)) m) W.mem := by
    intro n hn
    induction n with
    | zero => rfl
    | succ n ih =>
      rw [range_succ, foldl_append, foldl_append, ← ih (by omega)]
      exact row_mem hsrc htgt (by omega)
  rw [hrows _ le_rfl, grid, foldl_flatMap]
  simp only [foldl_map]

end Window

/-! ## Expansions -/

/-- The pixels of the target change as the source and the mode demand, and nothing else does. -/
def Expanded (M₀ : Mfdb (.planes .one)) {d : MfdbDepth} (M : Mfdb d) (q : Blit) : Prop :=
  ∀ (bpp8 : Bool) (color : ℕ → U8) (src : ℤ → U16) (fgColor bgColor : U32) (mem : M.Memory),
    M.bitmap.Changed q.target (Expansion.masked ⟨M₀, src, q, fgColor, bgColor⟩ bpp8).expected mem
      (M.expandArea bpp8 color ⟨M₀, src, q, fgColor, bgColor⟩ mem)

/-- When an expansion is right. -/
def ExpandOk : MfdbDepth → Blit → Prop
  | .deep _, _ => True
  | .planes _, q => q.w = 0 ∨ q.h = 0 ∨ (q.dx - q.sx) % 16 = 0

section
variable {P : Planes} {M : Mfdb (.planes P)} {E : Expansion}

theorem expand_alike (htgt : M.Holds E.q.target) (h : (E.q.dx - E.q.sx) % 16 = 0) (mem : ℤ → U16) :
    M.planar.Changed E.q.target E.expected mem
      ((grid E.q.h.toNat E.q.w.toNat).foldl (Window.putRound M E) mem) := by
  have hputs : (grid E.q.h.toNat E.q.w.toNat).foldl (Window.putRound M E) mem =
      M.planar.putAll E.q.target E.expected (grid E.q.h.toNat E.q.w.toNat) mem := by
    refine foldl_ext _ _ _ fun m p _ => ?_
    rw [Window.putRound, Expansion.column_eq h]
    rfl
  rw [hputs]
  exact Bitmap.changed_putAll htgt.bitmap mem

end

section
variable {logOp : U32} (hmode : 1 ≤ logOp.toNat ∧ logOp.toNat ≤ 4) {old : U32}
    (hold : old.getLsbD 0 = false)
include hmode hold

/-- With these colours and the bit that the mode draws, a pixel is set. -/
theorem expandPixel_drawn :
    (expandPixel logOp (BitVec.allOnes 32) (filled 32 (logOp.toNat = 4)) (logOp.toNat ≠ 4)
    old).getLsbD 0 = true := by
  have hcases : logOp.toNat = 1 ∨ logOp.toNat = 2 ∨ logOp.toNat = 3 ∨ logOp.toNat = 4 := by omega
  have hold' : old[0] = false := by simpa using hold
  rcases hcases with h | h | h | h <;> simp [expandPixel, filled, h, hold']

theorem expandPixel_not_drawn :
    (expandPixel logOp (BitVec.allOnes 32) (filled 32 (logOp.toNat = 4)) (logOp.toNat = 4)
    old).getLsbD 0 = false := by
  have hcases : logOp.toNat = 1 ∨ logOp.toNat = 2 ∨ logOp.toNat = 3 ∨ logOp.toNat = 4 := by omega
  have hold' : old[0] = false := by simpa using hold
  rcases hcases with h | h | h | h <;> simp [expandPixel, filled, h, hold']

end

/-! ## Source and target that do not lie alike -/

/-- An expansion that draws only the first pixel. -/
def firstOnly (M₀ : Mfdb (.planes .one)) (q : Blit) : Expansion where
  M₀ := M₀
  src := M₀.planar.spot q.sx q.sy (q.logOp.toNat ≠ 4) (q.logOp.toNat = 4)
  q := q
  fgColor := BitVec.allOnes 32
  bgColor := filled 32 (q.logOp.toNat = 4)

section
variable {M₀ : Mfdb (.planes .one)} {P : Planes} {M : Mfdb (.planes P)} {q : Blit}

variable (hsrc : M₀.Holds q.source)
include hsrc

theorem firstOnly_bit {p : ℕ × ℕ} (hp : p ∈ grid q.h.toNat q.w.toNat) :
    (firstOnly M₀ q).bit (q.sx + p.2) (q.sy + p.1) =
      if p = (0, 0) then decide (q.logOp.toNat ≠ 4) else decide (q.logOp.toNat = 4) := by
  have hp' := mem_grid.1 hp
  have hfirst : M₀.planar.Inside q.sx q.sy :=
    hsrc.bitmap.inside (source_corner (by omega) (by omega))
  have hiff : (q.sx + (p.2 : ℤ) = q.sx ∧ q.sy + (p.1 : ℤ) = q.sy) ↔ p = (0, 0) := by
    rw [Prod.ext_iff]
    omega
  rw [Expansion.bit, firstOnly,
    Bitmap.bit_spot _ hfirst (hsrc.bitmap.inside (source_contains hp)) Planes.one.count_pos]
  simp only [hiff]

variable (hmode : 1 ≤ q.logOp.toNat ∧ q.logOp.toNat ≤ 4)
include hmode

theorem firstOnly_expected (hp : (0, 0) ∈ grid q.h.toNat q.w.toNat) {old : U32}
    (hold : old.getLsbD 0 = false) : ((firstOnly M₀ q).expected 0 0 old).getLsbD 0 = true := by
  have hbit := firstOnly_bit hsrc hp
  rw [if_pos rfl, Nat.cast_zero] at hbit
  show (expandPixel q.logOp (.allOnes 32) (filled 32 (q.logOp.toNat = 4))
    ((firstOnly M₀ q).bit (q.sx + 0) (q.sy + 0)) old).getLsbD 0 = true
  rw [hbit]
  exact expandPixel_drawn hmode hold

/-- No round sets it: the first is at another column, and the others draw nothing. -/
theorem firstOnly_round (htgt : M.Holds q.target) (hne : (q.dx - q.sx) % 16 ≠ 0)
    (hin : M.planar.Inside q.dx q.dy) {p : ℕ × ℕ}
    (hp : p ∈ grid q.h.toNat q.w.toNat) {m : ℤ → U16} (hm : M.planar.bit m q.dx q.dy 0 = false) :
    M.planar.bit (Window.putRound M (firstOnly M₀ q) m p) q.dx q.dy 0 = false := by
  have hp' := mem_grid.1 hp
  have hgroup : M.HasGroup ((firstOnly M₀ q).group p.2) (q.dy + p.1) :=
    Expansion.hasGroup htgt hp'.1 hp'.2
  have hcolumn : M.planar.Inside ((firstOnly M₀ q).column p.2) (q.dy + p.1) :=
    hgroup.inside (by unfold Expansion.column; omega)
  by_cases heq : q.dx = (firstOnly M₀ q).column p.2 ∧ q.dy = q.dy + p.1
  · have hother : p ≠ (0, 0) := by
      rintro rfl
      have hcol := heq.1
      rw [Expansion.column_zero] at hcol
      simp only [firstOnly] at hcol
      omega
    have hbit := firstOnly_bit hsrc hp
    rw [if_neg hother] at hbit
    rw [← heq.1, ← heq.2] at hcolumn
    rw [Window.putRound, ← heq.1, show (firstOnly M₀ q).q.dy + (p.1 : ℤ) = q.dy from heq.2.symm,
      Bitmap.bit_put_self hcolumn P.count_pos]
    show (expandPixel q.logOp (.allOnes 32) (filled 32 (q.logOp.toNat = 4))
      ((firstOnly M₀ q).bit (q.sx + p.2) (q.sy + p.1)) _).getLsbD 0 = false
    rw [hbit]
    exact expandPixel_not_drawn hmode ((M.planar.getLsbD_pixel _ _ _ P.count_pos).trans hm)
  · exact (Bitmap.bit_put_of_ne hcolumn hin heq P.count_pos).trans hm

/-- Where source and target differ modulo 16, the bits come from the wrong columns. -/
theorem not_expanded (htgt : M.Holds q.target) (hw : 0 < q.w) (hh : 0 < q.h)
    (hne : (q.dx - q.sx) % 16 ≠ 0) : ¬ Expanded M₀ M q := by
  intro h
  have hcorner := target_corner hw hh
  have hin : M.planar.Inside q.dx q.dy := htgt.bitmap.inside hcorner
  have hp : (0, 0) ∈ grid q.h.toNat q.w.toNat := mem_grid.2 ⟨by omega, by omega⟩
  have hzero : M.planar.bit (fun _ => 0) q.dx q.dy 0 = false := by
    rw [Mfdb.bit_planes]
    simp
  have hgot : M.planar.bit
    ((grid q.h.toNat q.w.toNat).foldl (Window.putRound M (firstOnly M₀ q)) fun _ => 0)
      q.dx q.dy 0 = false :=
    List.foldlRecOn (motive := fun m => M.planar.bit m q.dx q.dy 0 = false) _ _ hzero
      fun _ hm _ hp => firstOnly_round hsrc hmode htgt hne hin hp hm
  have hrows : M.expandArea false (fun _ => 0) (firstOnly M₀ q) (fun _ => 0) =
      (grid q.h.toNat q.w.toNat).foldl (Window.putRound M (firstOnly M₀ q)) fun _ => 0 :=
    Window.rows_mem (E := firstOnly M₀ q) hsrc htgt
  have hwant : M.planar.bit
    (M.expandArea false (fun _ => 0) (firstOnly M₀ q) fun _ => 0) q.dx q.dy 0 =
      ((firstOnly M₀ q).expected (q.dx - q.dx) (q.dy - q.dy)
        (M.planar.pixel (fun _ => 0) q.dx q.dy)).getLsbD 0 :=
    (h false (fun _ => 0) _ _ _ fun _ => 0).inside q.dx q.dy hcorner 0 P.count_pos
  rw [sub_self, sub_self,
    firstOnly_expected hsrc hmode hp
    ((M.planar.getLsbD_pixel _ _ _ P.count_pos).trans hzero)] at hwant
  rw [hrows, hgot] at hwant
  exact absurd hwant (by decide)

end

/-- Expansions of monochrome bitmaps. -/
theorem expanded_iff (M₀ : Mfdb (.planes .one)) {d : MfdbDepth} (M : Mfdb d) (q : Blit)
    (hmode : 1 ≤ q.logOp.toNat ∧ q.logOp.toNat ≤ 4) (hsrc : M₀.Holds q.source)
    (htgt : M.Holds q.target) : Expanded M₀ M q ↔ ExpandOk d q := by
  cases d with
  | deep b =>
    refine ⟨fun _ => trivial, fun _ bpp8 color src fgColor bgColor mem => ?_⟩
    exact expandArea_deep (E := .masked ⟨M₀, src, q, fgColor, bgColor⟩ bpp8) hsrc htgt mem
  | planes P =>
    have hw0 : 0 ≤ q.w := htgt.2.1
    have hh0 : 0 ≤ q.h := htgt.2.2.2.2.1
    constructor
    · intro h
      by_contra hno
      simp only [ExpandOk, not_or] at hno
      exact not_expanded hsrc hmode htgt (by omega) (by omega) hno.2.2 h
    · intro hok bpp8 color src fgColor bgColor mem
      let E := Expansion.masked ⟨M₀, src, q, fgColor, bgColor⟩ bpp8
      have hrows : M.expandArea bpp8 color ⟨M₀, src, q, fgColor, bgColor⟩ mem =
          (grid q.h.toNat q.w.toNat).foldl (Window.putRound M E) mem :=
            Window.rows_mem (E := E) hsrc htgt
      rw [hrows]
      rcases hok with hw | hh | halike
      · have hnone : grid q.h.toNat q.w.toNat = [] := by simp [grid, hw]
        rw [hnone]
        exact Bitmap.changed_of_empty (.inl hw)
      · have hnone : grid q.h.toNat q.w.toNat = [] := by simp [grid, hh]
        rw [hnone]
        exact Bitmap.changed_of_empty (.inr hh)
      · exact expand_alike (E := E) htgt halike mem

theorem alike_expanded : Expanded monoMfdb monoMfdb ⟨1, 0, 1, 0, 2, 1, 1⟩ :=
  (expanded_iff monoMfdb monoMfdb ⟨1, 0, 1, 0, 2, 1, 1⟩ (by decide) (by decide) (by decide)).2
    (.inr (.inr (by decide)))

/-- The second pixel of the source is to be drawn at the first of the target. -/
theorem shifted_not_expanded :
    ∃ (M₀ M : Mfdb (.planes .one)) (q : Blit), (1 ≤ q.logOp.toNat ∧ q.logOp.toNat ≤ 4) ∧
    M₀.Holds q.source ∧ M.Holds q.target ∧ ¬ Expanded M₀ M q := by
  let q : Blit := ⟨1, 0, 0, 0, 1, 1, 1⟩
  let E : Expansion := ⟨monoMfdb, fun _ => 0xffff, q, 1, 0⟩
  refine ⟨monoMfdb, monoMfdb, q, by decide, by decide, by decide, fun h => ?_⟩
  have hbit : monoMfdb.planar.bit (monoMfdb.expandArea false (fun _ => 0) E fun _ => 0) 0 0 0 =
      ((E.masked false).expected 0 0 (monoMfdb.planar.pixel (fun _ => 0) 0 0)).getLsbD 0 :=
    (h false (fun _ => 0) (fun _ => 0xffff) 1 0 fun _ => 0).inside 0 0 (by decide) 0 (by decide)
  exact absurd hbit (by decide)

end Aranym.Vdi
