/-
  Blits from the screen to memory bitmaps (`SoftVdiDriver::blitArea_S2M`).

  Pixels of 16, 24 and 32 bits are copied one by one.  Bit planes are written
  in whole groups of 16 pixels that are made from 16 bytes of the surface,
  whatever the rectangle, the logical operation and the depth of the surface.
  So only rectangles of whole groups are copied.
-/
import Aranym.Vdi.Copies
import Aranym.Vdi.Planes

namespace Aranym.Vdi

open Lib List Int
open Blit (target expected)

/-! ## The driver -/

/-- The byte at an offset of the surface. -/
def Surface.byteAt {S : Surface} (px : S.Pixels) (o : ℤ) : U8 :=
  (px (o / S.pitch * S.pitch + o % S.pitch / S.bytes * S.bytes) >>>
    (8 * (o % S.pitch % S.bytes).toNat)).setWidth 8

namespace Mfdb

variable {S : Surface}

/-- A round of the loops for 16, 24 and 32 bits, in row `p.1` and at `i = sx + p.2`. -/
def s2mStep {b : Deep} (M : Mfdb (.deep b)) (px : S.Pixels) (q : Blit) (mem : M.Memory)
    (p : ℕ × ℕ) : M.Memory :=
  let i := q.sx + p.2
  let offset := uint32 ((q.dx + i - q.sx) * b.bytes + (q.dy + p.1) * M.pitch)
  let srcData := Surface.hsGetPixel px i (q.sy + p.1)
  let destData := (mem offset).setWidth 32
  Function.update mem offset ((applyBlitLogOperation q.logOp destData srcData).setWidth _)

section
variable {P : Planes} (M : Mfdb (.planes P)) (px : S.Pixels) (q : Blit)

/-- The bytes from which a group is made, in row `j` and at `i & ~0xf`. -/
def chunkyBytes (j : ℕ) (i : ℤ) (l : ℕ) : U8 :=
  S.byteAt px (uint32 (q.sy * S.pitch) + uint32 (j * S.pitch + i / 16 * 16) + l)

/-- A group is converted into `bitplanePixels` and written. -/
def s2mGroup (j : ℕ) (i g : ℤ) (st : Words × (ℤ → U16)) : Words × (ℤ → U16) :=
  let bitplanePixels := chunkyToBitplane (chunkyBytes px q j i) st.1
  (bitplanePixels, M.writeWords (g * P.count * 2 + (q.dy + j) * M.pitch) bitplanePixels st.2)

/-- The loop of a row.  A group is written first without a condition. -/
def s2mRow (st : Words × (ℤ → U16)) (j : ℕ) : Words × (ℤ → U16) :=
  (List.range q.w.toNat).foldl
    (fun st (k : ℕ) =>
      let i := q.sx + k
      if i % 16 = 0 then M.s2mGroup px q j i ((q.dx + i - q.sx) / 16) st else st)
    (M.s2mGroup px q j q.sx (q.dx / 16) st)

end

/-- `SoftVdiDriver::blitArea_S2M`.  `bitplanePixels` is not initialized. -/
def blitAreaS2M (bitplanePixels : Words) (px : S.Pixels) (q : Blit) :
    {d : MfdbDepth} → (M : Mfdb d) → M.Memory → M.Memory
  | .planes _, M, mem => ((List.range q.h.toNat).foldl (M.s2mRow px q) (bitplanePixels, mem)).2
  | .deep _, M, mem => (grid q.h.toNat q.w.toNat).foldl (M.s2mStep px q) mem

end Mfdb

/-! ## The groups that are written -/

namespace Mfdb

variable {S : Surface} {P : Planes} (M : Mfdb (.planes P)) (px : S.Pixels) (q : Blit)

/-- The words of a group with their offsets. -/
def groupDots (j : ℕ) (i g : ℤ) : List (ℤ × U16) :=
  M.wordDots (M.groupOffset g (q.dy + j)) (planeWord (chunkyBytes px q j i))

/-- What the loop of a row writes after the first group. -/
def loopDots (j : ℕ) : List (ℤ × U16) :=
  (List.range q.w.toNat).flatMap fun (k : ℕ) =>
    if (q.sx + k) % 16 = 0 then M.groupDots px q j (q.sx + k) ((q.dx + k) / 16) else []

/-- The words of a row. -/
def rowDots (j : ℕ) : List (ℤ × U16) := M.groupDots px q j q.sx (q.dx / 16) ++ M.loopDots px q j

/-- All words that are written. -/
def s2mDots : List (ℤ × U16) := (List.range q.h.toNat).flatMap (M.rowDots px q)

variable {M px q}

theorem s2mGroup_snd (j : ℕ) (i g : ℤ) (st : Words × (ℤ → U16)) :
    (M.s2mGroup px q j i g st).2 = paint (fun v _ => v) (M.groupDots px q j i g) st.2 := by
  have hwords : chunkyToBitplane (chunkyBytes px q j i) st.1 = planeWord (chunkyBytes px q j i) :=
    funext fun p => chunkyToBitplane_eq _ _ p
  rw [s2mGroup, hwords]
  rfl

theorem s2mRow_snd (st : Words × (ℤ → U16)) (j : ℕ) :
    (M.s2mRow px q st j).2 = paint (fun v _ => v) (M.rowDots px q j) st.2 := by
  rw [s2mRow, rowDots, paint_append, ← s2mGroup_snd, loopDots]
  refine foldl_paint (fun st k => ?_) _ _
  have hg : q.dx + (q.sx + k) - q.sx = q.dx + (k : ℤ) := by ring
  dsimp only
  rw [hg]
  split_ifs
  · exact s2mGroup_snd _ _ _ _
  · rfl

theorem blitAreaS2M_planes (words : Words) (mem : ℤ → U16) :
    M.blitAreaS2M words px q mem = paint (fun v _ => v) (M.s2mDots px q) mem :=
  foldl_paint s2mRow_snd _ _

variable {j : ℕ}

theorem mem_groupDots {i g : ℤ} {e : ℤ × U16} : e ∈ M.groupDots px q j i g ↔
      ∃ d < P.count,
        (uint32 (M.groupOffset g (q.dy + j) + 2 * d), planeWord (chunkyBytes px q j i) d) = e := by
  simp [groupDots, wordDots]

theorem mem_loopDots {e : ℤ × U16} : e ∈ M.loopDots px q j ↔
      ∃ k < q.w.toNat, (q.sx + k) % 16 = 0 ∧
      e ∈ M.groupDots px q j (q.sx + k) ((q.dx + k) / 16) := by
  simp only [loopDots, mem_flatMap, mem_range]
  refine exists_congr fun k => and_congr_right fun _ => ?_
  split_ifs with h <;> simp [h]

/-- The groups that are in the bitmap: the first of a row, and those of the loop. -/
theorem hasGroup_target (htgt : M.Holds q.target) {k : ℕ} (hj : j < q.h.toNat)
    (hk : k < q.w.toNat) : M.HasGroup ((q.dx + k) / 16) (q.dy + j) := by
  obtain ⟨h1, h2, h3, h4, h5, h6⟩ := htgt
  have hle := M.width_le
  simp only [target] at h1 h2 h3 h4 h5 h6
  exact ⟨by omega, by omega, by omega, by omega⟩

theorem hasGroup_first (htgt : M.Holds q.target) (hw : 0 < q.w) (hh : 0 < q.h) :
    M.HasGroup (q.dx / 16) q.dy := by
  simpa using hasGroup_target (j := 0) (k := 0) htgt (by omega) (by omega)

end Mfdb

/-! ## Bytes of the surface -/

namespace Surface

variable {S : Surface}

theorem getLsbD_byteAt (px : S.Pixels) (o : ℤ) {b : ℕ} (hb : b < 8) :
    (S.byteAt px o).getLsbD b =
      (px (o / S.pitch * S.pitch + o % S.pitch / S.bytes * S.bytes)).getLsbD
      (8 * (o % S.pitch % S.bytes).toNat + b) := by
  rw [byteAt, BitVec.getLsbD_setWidth, decide_eq_true hb, Bool.true_and, BitVec.getLsbD_ushiftRight]

theorem getLsbD_byteAt_bpp8 (hS : S.depth = .bpp8) (px : S.Pixels) (o : ℤ) {b : ℕ} (hb : b < 8) :
    (S.byteAt px o).getLsbD b = (px o).getLsbD b := by
  have hbytes : (S.bytes : ℤ) = 1 := by simp [bytes, hS, Depth.bytes]
  have ho : o / S.pitch * S.pitch + o % S.pitch = o := ediv_mul_add_emod o S.pitch
  rw [getLsbD_byteAt px o hb, hbytes, ediv_one, mul_one, ho, emod_one]
  simp

theorem byteAt_filled (o : ℤ) (v : Bool) : S.byteAt (fun _ => filled _ v) o = filled 8 v := by
  refine BitVec.eq_of_getLsbD_eq fun b hb => ?_
  have hsub0 := emod_nonneg (o % S.pitch) S.bytes_pos.ne'
  have hsub := emod_lt_of_pos (o % S.pitch) S.bytes_pos
  rw [getLsbD_byteAt _ _ hb, getLsbD_filled hb, getLsbD_filled (by omega)]

/-- Only the lowest bit of one pixel is set. -/
def onePixel (S : Surface) (A : ℤ) : S.Pixels := fun a => if a = A then 1 else 0

theorem eq_of_byteAt_onePixel {A o : ℤ}
    (h : (S.byteAt (S.onePixel A) o).getLsbD 0 = true) : o = A := by
  have hrow := ediv_mul_add_emod o S.pitch
  have hcolumn := ediv_mul_add_emod (o % S.pitch) S.bytes
  have hsub0 := emod_nonneg (o % S.pitch) S.bytes_pos.ne'
  rw [getLsbD_byteAt _ _ (by decide), onePixel] at h
  split_ifs at h with hA
  · -- the lowest bit is in the first byte
    have hzero : o % S.pitch % S.bytes ≤ 0 := by
      simp only [BitVec.ofNat_eq_ofNat, BitVec.getLsbD_one, decide_eq_true_eq,
        Bool.and_eq_true] at h
      omega
    omega
  · simp at h

end Surface

namespace Mfdb

variable {S : Surface} {P : Planes} {M : Mfdb (.planes P)} {q : Blit}

theorem chunkyBytes_eq (hfit : S.pitch * S.height ≤ 0x100000000) (hsrc : S.bitmap.Holds q.source)
    (px : S.Pixels) {j k : ℕ} (hj : j < q.h.toNat) (hk : k < q.w.toNat) (l : ℕ) :
    chunkyBytes px q j (q.sx + k) l =
      S.byteAt px ((q.sy + j) * S.pitch + (q.sx + k) / 16 * 16 + l) := by
  obtain ⟨hx0, -, hx, hy0, -, hy⟩ := hsrc
  replace hx0 : 0 ≤ q.sx := hx0
  replace hx : q.sx + q.w ≤ S.width := hx
  replace hy : q.sy + q.h ≤ S.height := hy
  have hfit' : (S.height : ℤ) * S.pitch ≤ 0x100000000 := by
    rw [mul_comm]
    exact_mod_cast hfit
  have hp0 : (0 : ℤ) ≤ S.pitch := natCast_nonneg _
  have hwidth : (S.width : ℤ) ≤ S.pitch := by
    have := S.row_le'
    have := S.bytes_pos
    nlinarith
  have hpitch : (0 : ℤ) < S.pitch := by omega
  have hrows : (q.sy + j + 1) * S.pitch ≤ S.height * S.pitch :=
    mul_le_mul_of_nonneg_right (by omega) hp0
  have hsy : 0 ≤ q.sy * S.pitch := mul_nonneg hy0 hp0
  have hjp : 0 ≤ (j : ℤ) * S.pitch := mul_nonneg (natCast_nonneg _) hp0
  have hsum : (q.sy + j + 1) * (S.pitch : ℤ) = q.sy * S.pitch + j * S.pitch + S.pitch := by ring
  rw [chunkyBytes, uint32_of_mem hsy (by linarith), uint32_of_mem (by omega) (by omega)]
  congr 1
  ring

end Mfdb

/-! ## Pixels of 16, 24 and 32 bits -/

theorem Mfdb.s2m_deep {S : Surface} {b : Deep} {M : Mfdb (.deep b)} {q : Blit}
    (hsrc : S.bitmap.Holds q.source) (htgt : M.Holds q.target) (px : S.Pixels) (mem : M.Memory) :
    M.bitmap.Changed q.target (q.expected (S.bitmap.pixel px)) mem
      ((grid q.h.toNat q.w.toNat).foldl (M.s2mStep px q) mem) := by
  let v : ℕ × ℕ → U32 := fun p => S.bitmap.pixel px (q.sx + p.2) (q.sy + p.1)
  let f : U32 → BitVec (MfdbDepth.deep b).cellBits → BitVec (MfdbDepth.deep b).cellBits :=
    fun src old =>
    (applyBlitLogOperation q.logOp (old.setWidth 32) src).setWidth _
  have hloop : (grid q.h.toNat q.w.toNat).foldl (M.s2mStep px q) mem =
      paint f (Bitmap.areaDots b.bytes M.pitch q.target v) mem := by
    rw [paint, Bitmap.areaDots, foldl_map]
    refine foldl_ext _ _ _ fun mem p hp => ?_
    have hs : S.Inside (q.sx + p.2) (q.sy + p.1) := hsrc.inside (source_contains hp)
    have hd := uint32_deep (htgt.bitmap.inside (target_contains hp))
    have hd' : (q.dx + (q.sx + p.2) - q.sx) * (b.bytes : ℤ) + (q.dy + p.1) * M.pitch =
        (q.dy + p.1) * M.pitch + (q.dx + p.2) * b.bytes := by ring
    rw [s2mStep, Surface.hsGetPixel_eq px hs, hd', hd]
    rfl
  rw [hloop]
  exact changed_deep htgt.bitmap (fun p old => rfl) mem

/-! ## Whole groups -/

namespace Mfdb

variable {S : Surface} {P : Planes} {M : Mfdb (.planes P)} {q : Blit} {px : S.Pixels}

/-- The rectangle consists of whole groups. -/
structure WholeGroups (q : Blit) : Prop where
  w_pos : 0 < q.w
  sx : 16 ∣ q.sx
  dx : 16 ∣ q.dx
  w : 16 ∣ q.w

variable {e : ℤ × U16}

/-- The group at the beginning of a row is then also one of the loop. -/
theorem mem_dots_whole (hq : WholeGroups q) : e ∈ M.s2mDots px q ↔
      ∃ j < q.h.toNat, ∃ k < q.w.toNat, k % 16 = 0 ∧
      e ∈ M.groupDots px q j (q.sx + k) ((q.dx + k) / 16) := by
  obtain ⟨hw, hsx, -, -⟩ := hq
  simp only [s2mDots, mem_flatMap, mem_range, rowDots, mem_append, mem_loopDots]
  refine exists_congr fun j => and_congr_right fun _ => ?_
  constructor
  · rintro (he | ⟨k, hk, hmod, he⟩)
    · exact ⟨0, by omega, rfl, by simpa using he⟩
    · exact ⟨k, hk, by omega, he⟩
  · rintro ⟨k, hk, hmod, he⟩
    exact .inr ⟨k, hk, by omega, he⟩

theorem mem_dots_offset (hq : WholeGroups q) (htgt : M.Holds q.target) :
    e ∈ M.s2mDots px q ↔ ∃ j < q.h.toNat, ∃ k < q.w.toNat, k % 16 = 0 ∧ ∃ d < P.count,
      (M.groupOffset ((q.dx + k) / 16) (q.dy + j) + 2 * d, planeWord
        (chunkyBytes px q j (q.sx + k)) d) = e := by
  rw [mem_dots_whole hq]
  refine exists_congr fun j => and_congr_right fun hj => exists_congr fun k =>
    and_congr_right fun hk => ?_
  rw [mem_groupDots]
  refine and_congr_right fun _ => exists_congr fun d => and_congr_right fun hd => ?_
  rw [uint32_groupOffset (hasGroup_target htgt hj hk) hd]

variable {k : ℕ}

theorem paint_dots_whole (hq : WholeGroups q) (htgt : M.Holds q.target) (px : S.Pixels)
    (mem : ℤ → U16)
    {j b : ℕ} (hj : j < q.h.toNat) (hk : k < q.w.toNat) (hmod : k % 16 = 0) (hb : b < P.count) :
    paint (fun v _ => v) (M.s2mDots px q) mem (M.groupOffset ((q.dx + k) / 16) (q.dy + j) + 2 * b) =
      planeWord (chunkyBytes px q j (q.sx + k)) b := by
  have hmem : (_, planeWord (chunkyBytes px q j (q.sx + k)) b) ∈ M.s2mDots px q :=
    (mem_dots_offset hq htgt).2 ⟨j, hj, k, hk, hmod, b, hb, rfl⟩
  refine paint_over_apply (mem_map_of_mem (f := Prod.fst) hmem) fun e he heq => ?_
  obtain ⟨j', hj', k', hk', hmod', d, hd, rfl⟩ := (mem_dots_offset hq htgt).1 he
  obtain ⟨hg, hy, rfl⟩ :=
    groupOffset_inj (hasGroup_target htgt hj' hk') hd (hasGroup_target htgt hj hk) hb heq
  rw [show j' = j by omega, show k' = k by omega]

/-- Replace mode copies whole groups of 16 pixels into the planes of a memory block. -/
theorem s2m_whole (hfit : S.pitch * S.height ≤ 0x100000000) (hS : S.depth = .bpp8)
    (hop : q.logOp = 3) (hq : WholeGroups q) (hsrc : S.bitmap.Holds q.source)
    (htgt : M.Holds q.target) (px : S.Pixels) (mem : ℤ → U16) :
    M.planar.Changed q.target (q.expected (S.bitmap.pixel px)) mem
      (paint (fun v _ => v) (M.s2mDots px q) mem) := by
  obtain ⟨hw, hsx, hdx, h16⟩ := id hq
  have hone : (S.bytes : ℤ) = 1 := by simp [Surface.bytes, hS, Depth.bytes]
  refine ⟨fun x y hxy b hb => ?_, fun x y hin hxy b hb => ?_, fun a t ht hno => ?_⟩
  · have hb' : b < P.count := hb
    have hb8 : b < 8 := hb'.trans_le P.count_le
    have hdepth : b < 8 * S.bytes := by omega
    simp only [Area.Contains, target] at hxy
    -- row and group of the pixel
    obtain ⟨j, hj⟩ := eq_ofNat_of_zero_le (show 0 ≤ y - q.dy by omega)
    obtain ⟨k, hk⟩ := eq_ofNat_of_zero_le (show 0 ≤ (x - q.dx) / 16 * 16 by omega)
    have hjh : j < q.h.toNat := by omega
    have hkw : k < q.w.toNat := by omega
    have hword := paint_dots_whole hq htgt px mem hjh hkw (by omega) hb'
    rw [show (q.dx + k) / 16 = x / 16 by omega, show q.dy + j = y by omega] at hword
    have hbyte : (q.sy + j) * (S.pitch : ℤ) + (q.sx + k) / 16 * 16 +
      (15 - (15 - x % 16).toNat : ℕ) =
        (q.sy + (y - q.dy)) * S.pitch + (q.sx + (x - q.dx)) * S.bytes := by
      have hcolumn : (q.sx + k) / 16 * 16 + ((15 - (15 - x % 16).toNat : ℕ) : ℤ) =
        q.sx + (x - q.dx) := by omega
      rw [hone, hj, mul_one, add_assoc, hcolumn]
    rw [bit_planes, hword, getLsbD_planeWord _ _ (by omega),
      chunkyBytes_eq hfit hsrc px hjh hkw, hbyte,
      Surface.getLsbD_byteAt_bpp8 hS px _ hb8, expected, hop]
    exact (S.bitmap.getLsbD_pixel px _ _ hdepth).symm
  · rw [bit_planes, bit_planes, paint_apply_of_not_mem]
    intro hmem
    obtain ⟨e, he, heq⟩ := List.mem_map.1 hmem
    obtain ⟨j, hj, k, hk, hmod, d, hd, rfl⟩ := (mem_dots_offset hq htgt).1 he
    obtain ⟨hg, hy, -⟩ :=
      groupOffset_inj (hasGroup_target htgt hj hk) hd (hasGroup_of_inside hin) hb heq
    refine hxy ?_
    simp only [Area.Contains, target]
    omega
  · rw [paint_apply_of_not_mem]
    intro hmem
    obtain ⟨e, he, heq⟩ := List.mem_map.1 hmem
    obtain ⟨j, hj, k, hk, hmod, d, hd, rfl⟩ := (mem_dots_offset hq htgt).1 he
    obtain ⟨x, hin, hbit⟩ := exists_pixel (hasGroup_target htgt hj hk) ht
    exact hno x _ hin d hd ⟨(hbit d).1.trans heq, (hbit d).2⟩

/-! ## Other rectangles -/

/-- The planes are written as is expected, for all pictures and memories. -/
def PlanesBlitted (S : Surface) (M : Mfdb (.planes P)) (q : Blit) : Prop :=
  ∀ (px : S.Pixels) (mem : ℤ → U16),
    M.planar.Changed q.target (q.expected (S.bitmap.pixel px)) mem
    (paint (fun v _ => v) (M.s2mDots px q) mem)

theorem first_written (hh : 0 < q.h) {d : ℕ} (hd : d < P.count) (px : S.Pixels) :
    uint32 (M.groupOffset (q.dx / 16) q.dy + 2 * d) ∈ (M.s2mDots px q).map Prod.fst := by
  refine List.mem_map.2 ⟨(_, planeWord (chunkyBytes px q 0 q.sx) d),
    List.mem_flatMap.2 ⟨0, List.mem_range.2 (by omega), ?_⟩, rfl⟩
  refine mem_append_left _ (mem_groupDots.2 ⟨d, hd, ?_⟩)
  rw [Nat.cast_zero, add_zero]
  rfl

theorem loop_written (hh : 0 < q.h) (hk : k < q.w.toNat) (hmod : (q.sx + k) % 16 = 0) {d : ℕ}
    (hd : d < P.count) (px : S.Pixels) :
    uint32 (M.groupOffset ((q.dx + k) / 16) q.dy + 2 * d) ∈ (M.s2mDots px q).map Prod.fst := by
  refine List.mem_map.2 ⟨(_, planeWord (chunkyBytes px q 0 (q.sx + k)) d),
    List.mem_flatMap.2 ⟨0, List.mem_range.2 (by omega), ?_⟩, rfl⟩
  refine mem_append_right _ (mem_loopDots.2 ⟨k, hk, hmod, mem_groupDots.2 ⟨d, hd, ?_⟩⟩)
  rw [Nat.cast_zero, add_zero]
  rfl

variable (h : PlanesBlitted S M q)
include h

/-- The pixels of a group that is written have to be in the target: what they were is lost. -/
theorem PlanesBlitted.contains {g y : ℤ} (hgroup : M.HasGroup g y)
    (hmem : ∀ px : S.Pixels, uint32 (M.groupOffset g y + 2 * (0 : ℕ)) ∈
      (M.s2mDots px q).map Prod.fst) {x : ℤ}
    (hx : x / 16 = g) : q.target.Contains x y := by
  by_contra hno
  have hbit : ∀ v : Bool, M.planar.bit (paint (fun v _ => v) (M.s2mDots (fun _ => 0 : S.Pixels) q)
      fun _ => filled 16 v) x y 0 = v := by
    intro v
    rw [(h _ _).outside x y (hgroup.inside hx) hno 0 P.count_pos, bit_planes,
      getLsbD_filled (by omega)]
  have hone := hbit true
  have hzero := hbit false
  have hmem' := hmem fun _ => 0
  rw [uint32_groupOffset hgroup P.count_pos] at hmem'
  rw [bit_planes, hx, paint_over_congr hmem' _ (fun _ => filled 16 false)] at hone
  rw [bit_planes, hx, hone] at hzero
  exact absurd hzero (by decide)

theorem PlanesBlitted.w_pos (htgt : M.Holds q.target) (hh : 0 < q.h) : 0 < q.w := by
  by_contra hw
  have hw0 : 0 ≤ q.w := htgt.2.1
  have hkeep : ∀ (px : S.Pixels) (mem : ℤ → U16), paint (fun v _ => v) (M.s2mDots px q) mem = mem :=
    fun px mem => (h px mem).unique (Bitmap.changed_of_empty (.inl (by simp only [target]; omega)))
  have hmem := first_written (M := M) hh P.count_pos (fun _ => 0 : S.Pixels)
  have hcongr := paint_over_congr hmem (fun _ => filled 16 true) fun _ => filled 16 false
  rw [hkeep, hkeep] at hcongr
  exact absurd hcongr (by decide)

theorem PlanesBlitted.first_group (htgt : M.Holds q.target) (hh : 0 < q.h) :
    16 ∣ q.dx ∧ 16 ≤ q.w := by
  have hw := h.w_pos htgt hh
  have hgroup := hasGroup_first htgt (by omega) hh
  have hleft :=
    h.contains hgroup (first_written hh P.count_pos) (show q.dx / 16 * 16 / 16 = q.dx / 16 by omega)
  have hright :=
    h.contains hgroup (first_written hh P.count_pos) (show (q.dx / 16 * 16 + 15) / 16 =
      q.dx / 16 by omega)
  simp only [Area.Contains, target] at hleft hright
  constructor <;> omega

omit h in
theorem filled_of_mem_dots {v : Bool} (he : e ∈ M.s2mDots (fun _ => filled _ v : S.Pixels) q) :
    e.2 = filled 16 v := by
  have hword : ∀ (j : ℕ) (i : ℤ), ∀ d < P.count,
      planeWord (chunkyBytes (fun _ => filled _ v : S.Pixels) q j i) d = filled 16 v := by
    intro j i d hd
    refine BitVec.eq_of_getLsbD_eq fun t ht => ?_
    rw [getLsbD_planeWord _ _ ht, chunkyBytes, Surface.byteAt_filled,
      getLsbD_filled (hd.trans_le P.count_le), getLsbD_filled ht]
  obtain ⟨j, -, he⟩ := List.mem_flatMap.1 he
  rcases List.mem_append.1 he with he | he
  · obtain ⟨d, hd, rfl⟩ := mem_groupDots.1 he
    exact hword _ _ d hd
  · obtain ⟨k, -, -, he⟩ := mem_loopDots.1 he
    obtain ⟨d, hd, rfl⟩ := mem_groupDots.1 he
    exact hword _ _ d hd

theorem PlanesBlitted.logOp (htgt : M.Holds q.target) (hh : 0 < q.h) : q.logOp = 3 := by
  have hw := h.w_pos htgt hh
  have hgroup := hasGroup_first htgt (by omega) hh
  have hcorner := target_corner hw hh
  have hdepth : 0 < S.bitmap.depth := Nat.mul_pos (by decide) S.depth.bytes_pos
  refine eq_three_of_opBit fun d v => ?_
  -- what is expected of the first pixel, and what is written
  have hbit := (h (fun _ => filled _ v) fun _ => filled 16 d).inside q.dx q.dy hcorner 0 P.count_pos
  have hmem := first_written (M := M) hh P.count_pos (fun _ => filled _ v : S.Pixels)
  rw [uint32_groupOffset hgroup P.count_pos] at hmem
  rw [bit_planes, paint_over_apply hmem fun e he _ => filled_of_mem_dots he,
    getLsbD_filled (by omega), expected,
    getLsbD_applyBlitLogOperation _ _ _ (by decide), Bitmap.getLsbD_pixel _ _ _ _ P.count_pos,
    Bitmap.getLsbD_pixel _ _ _ _ hdepth, bit_planes, getLsbD_filled (by omega)] at hbit
  have hsource : S.bitmap.bit (fun _ => filled _ v) (q.sx + (q.dx - q.target.x))
    (q.sy + (q.dy - q.target.y)) 0 = v :=
    getLsbD_filled hdepth v
  rw [hsource] at hbit
  exact hbit.symm

omit h in
/-- The first group of the target is made from the first group of the source that begins in the
    rectangle. -/
theorem paint_first_group (htgt : M.Holds q.target) (hh : 0 < q.h) (hdx : 16 ∣ q.dx) (hw : 16 ≤ q.w)
    (px : S.Pixels) (mem : ℤ → U16) (hk : k < 16) (hmod : (q.sx + k) % 16 = 0) :
    paint (fun v _ => v) (M.s2mDots px q) mem (M.groupOffset (q.dx / 16) q.dy + 2 * (0 : ℕ)) =
      planeWord (chunkyBytes px q 0 (q.sx + k)) 0 := by
  have hgroup := hasGroup_first htgt (by omega) hh
  obtain ⟨n, hn⟩ : ∃ n, q.h.toNat = n + 1 := ⟨q.h.toNat - 1, by omega⟩
  -- without the group at the beginning of the first row
  have hsplit : M.s2mDots px q = M.groupDots px q 0 q.sx (q.dx / 16) ++
      (M.loopDots px q 0 ++ (List.range n).flatMap fun j => M.rowDots px q (j + 1)) := by
    rw [s2mDots, hn, range_succ_eq_map, flatMap_cons, flatMap_map, rowDots, append_assoc]
  rw [hsplit, paint_append]
  refine paint_over_apply ?_ fun e he heq => ?_
  · have hmem : (uint32 (M.groupOffset ((q.dx + k) / 16) (q.dy + (0 : ℕ)) + 2 * (0 : ℕ)),
        planeWord (chunkyBytes px q 0 (q.sx + k)) 0) ∈ M.loopDots px q 0 :=
      mem_loopDots.2 ⟨k, by omega, hmod, mem_groupDots.2 ⟨0, P.count_pos, rfl⟩⟩
    rw [show (q.dx + k) / 16 = q.dx / 16 by omega, show q.dy + ((0 : ℕ) : ℤ) = q.dy by omega,
      uint32_groupOffset hgroup P.count_pos] at hmem
    exact List.mem_map.2 ⟨_, mem_append_left _ hmem, rfl⟩
  · rcases List.mem_append.1 he with he | he
    · obtain ⟨k', hk', hmod', he⟩ := mem_loopDots.1 he
      obtain ⟨d, hd, rfl⟩ := mem_groupDots.1 he
      have hgroup' := hasGroup_target (j := 0) htgt (by omega) hk'
      rw [uint32_groupOffset hgroup' hd] at heq
      obtain ⟨hg, -, rfl⟩ := groupOffset_inj hgroup' hd hgroup P.count_pos heq
      rw [show k' = k by omega]
    · -- the other rows
      obtain ⟨j, hj, he⟩ := List.mem_flatMap.1 he
      have hj' : j + 1 < q.h.toNat := by
        have := List.mem_range.1 hj
        omega
      have hrow : ∀ {k' : ℕ} {i : ℤ}, k' < q.w.toNat →
          e ∈ M.groupDots px q (j + 1) i ((q.dx + k') / 16) → False := by
        intro k' i hk' he
        obtain ⟨d, hd, rfl⟩ := mem_groupDots.1 he
        have hgroup' := hasGroup_target htgt hj' hk'
        dsimp only at heq
        rw [uint32_groupOffset hgroup' hd] at heq
        obtain ⟨-, hy, -⟩ := groupOffset_inj hgroup' hd hgroup P.count_pos heq
        omega
      rcases List.mem_append.1 he with he | he
      · exact (hrow (show 0 < q.w.toNat by omega) (by simpa using he)).elim
      · obtain ⟨k', hk', -, he⟩ := mem_loopDots.1 he
        exact (hrow hk' he).elim

theorem PlanesBlitted.bytes (hfit : S.pitch * S.height ≤ 0x100000000)
    (hsrc : S.bitmap.Holds q.source) (htgt : M.Holds q.target) (hh : 0 < q.h) (hk : k < 16)
    (hmod : (q.sx + k) % 16 = 0) {l : ℕ} (hl : l < 16) : q.sx + k + l = (q.sx + l) * S.bytes := by
  obtain ⟨hdx, hw⟩ := h.first_group htgt hh
  have hcontains : q.target.Contains (q.dx + l) q.dy := by
    simp only [Area.Contains, target]
    omega
  have hdepth : 0 < S.bitmap.depth := Nat.mul_pos (by decide) S.depth.bytes_pos
  -- only this pixel is set, so the byte is its first one
  have hbit :=
    (h (S.onePixel (S.offset (q.sx + l) q.sy)) fun _ => 0).inside
      (q.dx + l) q.dy hcontains 0 P.count_pos
  have hone : S.bitmap.bit (S.onePixel (S.offset (q.sx + l) q.sy)) (q.sx + (q.dx + l - q.target.x))
      (q.sy + (q.dy - q.target.y)) 0 = true := by
    have hx : q.sx + (q.dx + l - q.target.x) = q.sx + l := by
      simp only [target]
      omega
    have hy : q.sy + (q.dy - q.target.y) = q.sy := by
      simp only [target]
      omega
    rw [hx, hy]
    show (S.onePixel (S.offset (q.sx + l) q.sy) (S.offset (q.sx + l) q.sy)).getLsbD 0 = true
    rw [Surface.onePixel, if_pos rfl]
    simp only [BitVec.ofNat_eq_ofNat, BitVec.getLsbD_one, decide_true, Bool.and_true,
      decide_eq_true_eq]
    exact hdepth
  rw [bit_planes, show (q.dx + l) / 16 = q.dx / 16 by omega,
    paint_first_group htgt hh hdx hw _ _ hk hmod,
    getLsbD_planeWord _ _ (by omega), chunkyBytes_eq hfit hsrc _ (by omega) (by omega), expected,
    h.logOp htgt hh] at hbit
  have hbyte :=
    Surface.eq_of_byteAt_onePixel (hbit.trans ((S.bitmap.getLsbD_pixel _ _ _ hdepth).trans hone))
  rw [show 15 - (15 - (q.dx + l) % 16).toNat = l by omega, Surface.offset] at hbyte
  push_cast at hbyte
  rw [add_zero] at hbyte
  omega

theorem PlanesBlitted.source (hfit : S.pitch * S.height ≤ 0x100000000)
    (hsrc : S.bitmap.Holds q.source) (htgt : M.Holds q.target) (hh : 0 < q.h) :
    S.depth = .bpp8 ∧ 16 ∣ q.sx := by
  obtain ⟨k, hk⟩ := eq_ofNat_of_zero_le (emod_nonneg (-q.sx) (show (16 : ℤ) ≠ 0 by decide))
  have hzero := h.bytes hfit hsrc htgt hh (show k < 16 by omega) (by omega) (show 0 < 16 by decide)
  have hone := h.bytes hfit hsrc htgt hh (show k < 16 by omega) (by omega) (show 1 < 16 by decide)
  push_cast at hzero hone
  have hbytes : (S.bytes : ℤ) = 1 := by linarith
  rw [hbytes] at hzero
  refine ⟨?_, by omega⟩
  have hdepth : S.depth.bytes = 1 := by exact_mod_cast hbytes
  revert hdepth
  cases S.depth <;> simp [Depth.bytes]

theorem PlanesBlitted.w_dvd (hsx : 16 ∣ q.sx) (htgt : M.Holds q.target) (hh : 0 < q.h) :
    16 ∣ q.w := by
  obtain ⟨hdx, hw⟩ := h.first_group htgt hh
  by_contra hno
  obtain ⟨k, hk⟩ := eq_ofNat_of_zero_le (show 0 ≤ q.w / 16 * 16 by omega)
  have hgroup : M.HasGroup ((q.dx + k) / 16) q.dy := by
    simpa using hasGroup_target (j := 0) (k := k) htgt (by omega) (by omega)
  have hlast := h.contains hgroup (loop_written hh (by omega) (by omega) P.count_pos)
    (show ((q.dx + k) / 16 * 16 + 15) / 16 = (q.dx + k) / 16 by omega)
  simp only [Area.Contains, target] at hlast
  omega

end Mfdb

/-! ## Blits -/

/-- The target becomes what the operation makes of it and the source, and nothing else changes. -/
def Blitted (S : Surface) {d : MfdbDepth} (M : Mfdb d) (q : Blit) : Prop :=
  ∀ (bitplanePixels : Words) (px : S.Pixels) (mem : M.Memory),
    M.bitmap.Changed q.target (q.expected (S.bitmap.pixel px)) mem
    (M.blitAreaS2M bitplanePixels px q mem)

/-- When a blit from the screen is right. -/
def BlitOk (S : Surface) : MfdbDepth → Blit → Prop
  | .deep _, _ => True
  | .planes _, q => q.h = 0 ∨
    (0 < q.w ∧ S.depth = .bpp8 ∧ q.logOp = 3 ∧ 16 ∣ q.sx ∧ 16 ∣ q.dx ∧ 16 ∣ q.w)

/-- Blits from the screen to memory.  The surface is in 32 bits. -/
theorem blitted_iff (S : Surface) (hfit : S.pitch * S.height ≤ 0x100000000) {d : MfdbDepth}
    (M : Mfdb d) (q : Blit)
    (hsrc : S.bitmap.Holds q.source) (htgt : M.Holds q.target) : Blitted S M q ↔ BlitOk S d q := by
  cases d with
  | deep b => exact ⟨fun _ => trivial, fun _ _ px mem => Mfdb.s2m_deep hsrc htgt px mem⟩
  | planes P =>
    have hplanes : Blitted S M q ↔ Mfdb.PlanesBlitted S M q := by
      constructor
      · intro h px mem
        have heq : M.blitAreaS2M (fun _ => 0) px q mem = _ := Mfdb.blitAreaS2M_planes _ mem
        rw [← heq]
        exact h (fun _ => 0) px mem
      · intro h words px mem
        have heq : M.blitAreaS2M words px q mem = _ := Mfdb.blitAreaS2M_planes words mem
        rw [heq]
        exact h px mem
    rw [hplanes]
    have hh0 : 0 ≤ q.h := htgt.2.2.2.2.1
    constructor
    · intro h
      rcases hh0.eq_or_lt with hh | hh
      · exact .inl hh.symm
      · obtain ⟨hS, hsx⟩ := h.source hfit hsrc htgt hh
        exact .inr ⟨h.w_pos htgt hh, hS, h.logOp htgt hh, hsx, (h.first_group htgt hh).1,
          h.w_dvd hsx htgt hh⟩
    · rintro (hh | ⟨hw, hS, hop, hsx, hdx, h16⟩) px mem
      · have hnone : M.s2mDots px q = [] := by simp [Mfdb.s2mDots, hh]
        rw [hnone]
        exact Bitmap.changed_of_empty (.inr hh)
      · exact Mfdb.s2m_whole hfit hS hop ⟨hw, hsx, hdx, h16⟩ hsrc htgt px mem

theorem group_blitted : Blitted (plainSurface 16 1 (by decide)) monoMfdb ⟨0, 0, 0, 0, 16, 1, 3⟩ :=
  (blitted_iff (plainSurface 16 1 (by decide)) (by decide) monoMfdb ⟨0, 0, 0, 0, 16, 1, 3⟩
    (by decide) (by decide)).2 (.inr (by decide))

/-- One pixel is to be copied, but its neighbour is changed as well. -/
theorem pixel_not_blitted : ∃ (S : Surface) (q : Blit), S.pitch * S.height ≤ 0x100000000 ∧
    S.bitmap.Holds q.source ∧
    monoMfdb.Holds q.target ∧ ¬ Blitted S monoMfdb q := by
  let S := plainSurface 16 1 (by decide)
  let q : Blit := ⟨0, 0, 0, 0, 1, 1, 3⟩
  let px : S.Pixels := fun _ => 0
  let mem : ℤ → U16 := fun _ => 0xffff
  refine ⟨S, q, by decide, by decide, by decide, fun h => ?_⟩
  have hbit : monoMfdb.planar.bit (monoMfdb.blitAreaS2M (fun _ => 0) px q mem) 1 0 0 =
    monoMfdb.planar.bit mem 1 0 0 :=
    (h (fun _ => 0) px mem).outside 1 0 (by decide) (by decide) 0 (by decide)
  have hgot : monoMfdb.planar.bit (monoMfdb.blitAreaS2M (fun _ => 0) px q mem) 1 0 0 = false := by
    decide +kernel
  have hwant : monoMfdb.planar.bit mem 1 0 0 = true := by decide +kernel
  rw [hgot, hwant] at hbit
  exact absurd hbit (by decide)

end Aranym.Vdi
