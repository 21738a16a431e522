/-
  Memory bitmaps of the NF VDI driver (`nfvdi.cpp`, `nfvdi.h`) and the logical
  operations of its blits.

  An MFDB (memory form definition block) describes a bitmap in the memory of
  the Atari: bit planes, or pixels of two, three or four bytes.  Its memory is
  addressed by offsets from the address in the MFDB; a cell, a word of a plane
  or a pixel, is at the offset of its first byte.
-/
import Aranym.Lib.Bitmap
import Aranym.Vdi.Surface

namespace Aranym.Vdi

open Lib
open BitVec hiding not_or

/-! ## Logical operations -/

/-- The sixteen operations. -/
def applyBlitLogOperation (logicalOperation destinationData sourceData : U32) : U32 :=
  match logicalOperation.toNat with
  | 0 => 0
  | 1 => sourceData &&& destinationData
  | 2 => sourceData &&& ~~~destinationData
  | 3 => sourceData
  | 4 => ~~~sourceData &&& destinationData
  | 6 => sourceData ^^^ destinationData
  | 7 => sourceData ||| destinationData
  | 8 => ~~~(sourceData ||| destinationData)
  | 9 => ~~~(sourceData ^^^ destinationData)
  | 10 => ~~~destinationData
  | 11 => sourceData ||| ~~~destinationData
  | 12 => ~~~sourceData
  | 13 => ~~~sourceData ||| destinationData
  | 14 => ~~~(sourceData &&& destinationData)
  | 15 => 0xffffffff
  | _ => destinationData

/-- All bits alike. -/
def filled (c : ℕ) (b : Bool) : BitVec c := if b then BitVec.allOnes c else 0

theorem getLsbD_filled {c t : ℕ} (ht : t < c) (b : Bool) : (filled c b).getLsbD t = b := by
  cases b <;> simp [filled, ht]

/-- What an operation does to a bit. -/
def opBit (logOp : U32) (d s : Bool) : Bool :=
  (applyBlitLogOperation logOp (filled 32 d) (filled 32 s)).getLsbD 0

theorem getLsbD_applyBlitLogOperation (logOp dst src : U32) {t : ℕ} (ht : t < 32) :
    (applyBlitLogOperation logOp dst src).getLsbD t =
      opBit logOp (dst.getLsbD t) (src.getLsbD t) := by
  have hones : (0xffffffff : U32) = BitVec.allOnes 32 := by decide
  unfold opBit applyBlitLogOperation
  rw [hones]
  generalize hd : dst.getLsbD t = d
  generalize hs : src.getLsbD t = s
  have hd0 := getLsbD_filled (show 0 < 32 by decide) d
  have hs0 := getLsbD_filled (show 0 < 32 by decide) s
  split <;>
    simp only [getLsbD_and, getLsbD_or, getLsbD_xor, getLsbD_not, ofNat_eq_ofNat,
      getLsbD_zero, getLsbD_allOnes, ht, hd, hs, hd0, hs0, decide_true, Nat.ofNat_pos]

/-- The operation depends on the source. -/
def UsesSource (logOp : U32) : Prop := logOp.toNat ∈ [1, 2, 3, 4, 6, 7, 8, 9, 11, 12, 13, 14]
deriving Decidable

variable {logOp : U32}

theorem applyBlitLogOperation_of_not_usesSource (h : ¬ UsesSource logOp) (dst src src' : U32) :
    applyBlitLogOperation logOp dst src = applyBlitLogOperation logOp dst src' := by
  unfold applyBlitLogOperation
  split <;> first | rfl | exact absurd (by simp [UsesSource, *]) h

/-- The operation keeps every destination. -/
def KeepsDestination (logOp : U32) : Prop := logOp = 5 ∨ 15 < logOp.toNat
deriving Decidable

theorem opBit_of_keepsDestination (h : KeepsDestination logOp) (d s : Bool) :
    opBit logOp d s = d := by
  have hkeep : ∀ dst src, applyBlitLogOperation logOp dst src = dst := by
    intro dst src
    rcases h with rfl | h
    · rfl
    · unfold applyBlitLogOperation
      split <;> first | rfl | omega
  rw [opBit, hkeep, getLsbD_filled (by decide)]

/-- An operation that uses the source can tell a destination from what it makes of it. -/
theorem opBit_of_usesSource (h : UsesSource logOp) :
    ∃ d₂ d s, opBit logOp d₂ (opBit logOp d s) ≠ opBit logOp d₂ d := by
  have htable : ∀ n ∈ [1, 2, 3, 4, 6, 7, 8, 9, 11, 12, 13, 14], ∃ d₂ d s : Bool,
      opBit (.ofNat 32 n) d₂ (opBit (.ofNat 32 n) d s) ≠ opBit (.ofNat 32 n) d₂ d := by
    decide +kernel
  have hop := htable logOp.toNat h
  rwa [ofNat_toNat, setWidth_eq] at hop

/-- The operation keeps a destination that is its own source. -/
def KeepsEqual (logOp : U32) : Prop := logOp.toNat ∈ [1, 3, 7]
deriving Decidable

/-- The operations up to 15 but for `KeepsDestination` change some bit, and but for `KeepsEqual`
    also by itself. -/
theorem opBit_table : ∀ n < 16, n ≠ 5 → (∃ d s, opBit (BitVec.ofNat 32 n) d s ≠ d) ∧
    ((∀ d, opBit (BitVec.ofNat 32 n) d d = d) ↔ n ∈ [1, 3, 7]) := by
  decide +kernel

theorem opBit_changes (h : ¬ KeepsDestination logOp) :
    (∃ d s, opBit logOp d s ≠ d) ∧ ((∀ d, opBit logOp d d = d) ↔ KeepsEqual logOp) := by
  simp only [KeepsDestination, not_or, not_lt] at h
  have hne : logOp.toNat ≠ 5 := fun h5 => h.1 (BitVec.eq_of_toNat_eq h5)
  have hop := opBit_table logOp.toNat (by omega) hne
  rwa [ofNat_toNat, setWidth_eq] at hop

theorem eq_three_of_opBit (h : ∀ d s, opBit logOp d s = s) : logOp = 3 := by
  have htable : ∀ n < 16, (∀ d s, opBit (.ofNat 32 n) d s = s) → n = 3 := by decide +kernel
  by_cases hlt : logOp.toNat < 16
  · refine BitVec.eq_of_toNat_eq (htable logOp.toNat hlt ?_)
    rwa [ofNat_toNat, setWidth_eq]
  · have hkeep := opBit_of_keepsDestination (.inr (by omega) : KeepsDestination logOp) true false
    rw [h] at hkeep
    exact absurd hkeep (by decide)

/-! ## MFDBs -/

/-- Numbers of planes. -/
inductive Planes
  | one | two | four | eight
  deriving DecidableEq, Repr

/-- Their number. -/
def Planes.count : Planes → ℕ
  | one => 1
  | two => 2
  | four => 4
  | eight => 8

theorem Planes.count_pos (p : Planes) : 0 < p.count := by cases p <;> decide

theorem Planes.count_le (p : Planes) : p.count ≤ 8 := by cases p <;> decide

/-- Pixels of 16, 24 and 32 bits. -/
inductive Deep
  | bit16 | bit24 | bit32
  deriving DecidableEq, Repr

/-- The bytes of a pixel. -/
def Deep.bytes : Deep → ℕ
  | bit16 => 2
  | bit24 => 3
  | bit32 => 4

theorem Deep.bytes_pos (b : Deep) : (0 : ℤ) < b.bytes := by cases b <;> decide

theorem Deep.bits_le (b : Deep) : 8 * b.bytes ≤ 32 := by cases b <;> decide

/-- Planes or whole pixels. -/
inductive MfdbDepth
  | planes (p : Planes)
  | deep (b : Deep)
  deriving DecidableEq, Repr

namespace MfdbDepth

/-- The bits of a pixel. -/
def nplanes : MfdbDepth → ℕ
  | planes p => p.count
  | deep b => 8 * b.bytes

/-- The bits of a cell. -/
def cellBits : MfdbDepth → ℕ
  | planes _ => 16
  | deep b => 8 * b.bytes

end MfdbDepth

/-- An MFDB.  Its fields are `short`; the bitmap is in the address space. -/
structure Mfdb (d : MfdbDepth) where
  width : ℕ
  height : ℕ
  wdwidth : ℕ
  width_lt : width < 0x8000
  height_lt : height < 0x8000
  wdwidth_lt : wdwidth < 0x8000
  width_le : width ≤ 16 * wdwidth
  fits : wdwidth * d.nplanes * 2 * height ≤ 0x100000000

/-- `uint32` arithmetic. -/
def uint32 (v : ℤ) : ℤ := v % 0x100000000

theorem uint32_of_mem {v : ℤ} (h0 : 0 ≤ v) (h : v < 0x100000000) : uint32 v = v :=
  Int.emod_eq_of_lt h0 h

namespace Mfdb

variable {d : MfdbDepth}

/-- The bytes of a row. -/
def pitch (M : Mfdb d) : ℕ := M.wdwidth * d.nplanes * 2

/-- What is at the offsets of a bitmap. -/
abbrev Memory (_ : Mfdb d) : Type := ℤ → BitVec d.cellBits

/-- The rectangle is in the bitmap. -/
def Holds (M : Mfdb d) (r : Area) : Prop :=
  0 ≤ r.x ∧ 0 ≤ r.w ∧ r.x + r.w ≤ M.width ∧ 0 ≤ r.y ∧ 0 ≤ r.h ∧ r.y + r.h ≤ M.height
deriving Decidable

variable {b : Deep}

theorem deep_row (M : Mfdb (.deep b)) : (b.bytes : ℤ) * (16 * M.wdwidth : ℕ) ≤ M.pitch := by
  have hpitch : M.pitch = M.wdwidth * (8 * b.bytes) * 2 := rfl
  push_cast
  linarith

/-- The pixels of a bitmap of planes. -/
def planar {p : Planes} (M : Mfdb (.planes p)) : Bitmap 16 :=
  Bitmap.ofPlanes p.count M.wdwidth M.height (p.count_le.trans (by decide))

/-- Where the pixels are.  A row has all pixels of its words, also those beyond the width. -/
def bitmap : {d : MfdbDepth} → Mfdb d → Bitmap d.cellBits
  | .planes _, M => M.planar
  | .deep b, M =>
      Bitmap.ofCells (8 * b.bytes) (16 * M.wdwidth) M.height b.bytes M.pitch b.bits_le
      b.bytes_pos M.deep_row

theorem Holds.bitmap {M : Mfdb d} {r : Area} (h : M.Holds r) : M.bitmap.Holds r := by
  have hle := M.width_le
  obtain ⟨h1, h2, h3, h4, h5, h6⟩ := h
  cases d with
  | planes p =>
    exact ⟨h1, h2, by simp only [Mfdb.bitmap, planar, Bitmap.ofPlanes]; omega, h4, h5, h6⟩
  | deep b => exact ⟨h1, h2, by simp only [Mfdb.bitmap, Bitmap.ofCells]; omega, h4, h5, h6⟩

theorem uint32_offset (M : Mfdb d) {y c : ℤ} (hy0 : 0 ≤ y) (hy : y < M.height) (hc0 : 0 ≤ c)
    (hc : c < M.pitch) : uint32 (y * M.pitch + c) = y * M.pitch + c := by
  have hfits : (M.pitch : ℤ) * M.height ≤ 0x100000000 := by exact_mod_cast M.fits
  have hp0 : (0 : ℤ) ≤ M.pitch := Int.natCast_nonneg _
  refine uint32_of_mem (add_nonneg (mul_nonneg hy0 hp0) hc0) ?_
  have hrow : (y + 1) * M.pitch ≤ M.height * M.pitch := mul_le_mul_of_nonneg_right (by omega) hp0
  linarith

theorem uint32_deep {M : Mfdb (.deep b)} {x y : ℤ} (hin : M.bitmap.Inside x y) :
    uint32 (y * M.pitch + x * b.bytes) = y * M.pitch + x * b.bytes := by
  have hx : x < (16 * M.wdwidth : ℕ) := hin.2.1
  have hb := b.bytes_pos
  have hrow := M.deep_row
  exact M.uint32_offset hin.2.2.1 hin.2.2.2 (mul_nonneg hin.1 hb.le) (by nlinarith)

theorem changed_deep {M : Mfdb (.deep b)} {r : Area} (hr : M.bitmap.Holds r) {β : Type*}
    {f : β → BitVec (MfdbDepth.deep b).cellBits → BitVec (MfdbDepth.deep b).cellBits}
    {v : ℕ × ℕ → β} {new : ℤ → ℤ → U32 → U32}
    (hnew : ∀ p old, f (v p) old = (new p.2 p.1 (old.setWidth 32)).setWidth _) (mem : M.Memory) :
    M.bitmap.Changed r new mem (paint f (Bitmap.areaDots b.bytes M.pitch r v) mem) :=
  @Bitmap.changed_paint _ _ _ _ _ _ _ _ b.bits_le b.bytes_pos M.deep_row _ _ _ hr hnew

end Mfdb

/-- The surface as a bitmap. -/
def Surface.bitmap (S : Surface) : Bitmap (8 * S.bytes) :=
  Bitmap.ofCells (8 * S.bytes) S.width S.height S.bytes S.pitch
    (by have := S.depth.bytes_le; unfold Surface.bytes; omega) S.bytes_pos S.row_le'

theorem Surface.hsGetPixel_eq {S : Surface} (px : S.Pixels) {x y : ℤ} (h : S.Inside x y) :
    hsGetPixel px x y = S.bitmap.pixel px x y := by
  rw [hsGetPixel, if_pos h]
  exact (Bitmap.pixel_ofCells px x y).symm

/-- The parameters of a blit. -/
structure Blit where
  sx : ℤ
  sy : ℤ
  dx : ℤ
  dy : ℤ
  w : ℤ
  h : ℤ
  logOp : U32
  deriving DecidableEq, Repr

namespace Blit

/-- The area read. -/
def source (q : Blit) : Area := ⟨q.sx, q.sy, q.w, q.h⟩

/-- The area written. -/
def target (q : Blit) : Area := ⟨q.dx, q.dy, q.w, q.h⟩

end Blit

section
variable {q : Blit}

theorem target_contains {p : ℕ × ℕ} (hp : p ∈ grid q.h.toNat q.w.toNat) :
    q.target.Contains (q.dx + p.2) (q.dy + p.1) := by
  have hp' := mem_grid.1 hp
  simp only [Area.Contains, Blit.target]
  omega

theorem source_contains {p : ℕ × ℕ} (hp : p ∈ grid q.h.toNat q.w.toNat) :
    q.source.Contains (q.sx + p.2) (q.sy + p.1) := by
  have hp' := mem_grid.1 hp
  simp only [Area.Contains, Blit.source]
  omega

theorem target_corner (hw : 0 < q.w) (hh : 0 < q.h) : q.target.Contains q.dx q.dy := by
  simp only [Area.Contains, Blit.target]
  omega

theorem source_corner (hw : 0 < q.w) (hh : 0 < q.h) : q.source.Contains q.sx q.sy := by
  simp only [Area.Contains, Blit.source]
  omega

end

/-- A monochrome bitmap of one group. -/
def monoMfdb : Mfdb (.planes .one) where
  width := 16
  height := 1
  wdwidth := 1
  width_lt := by decide
  height_lt := by decide
  wdwidth_lt := by decide
  width_le := by decide
  fits := by decide

/-- A small bitmap of 16-bit pixels. -/
def smallMfdb : Mfdb (.deep .bit16) where
  width := 16
  height := 1
  wdwidth := 1
  width_lt := by decide
  height_lt := by decide
  wdwidth_lt := by decide
  width_le := by decide
  fits := by decide

end Aranym.Vdi
