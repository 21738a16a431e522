/-
  Copies within one bitmap by the NF VDI driver (`blitArea_S2S`,
  `blitArea_M2M`).

  The loops go through the rectangles in raster order and read and write pixel
  by pixel.  So they read pixels that they have already written if the target
  is below the source, or to the right of it in the same rows, and overlaps it
  (`Blit.Conflict`).  The bit planes of a memory bitmap are not copied at all.
-/
import Aranym.Vdi.Mfdb

namespace Aranym.Vdi

open Lib

/-! ## The driver -/

/-- A round of the loop of `blitArea_S2S`. -/
def Surface.s2sStep {S : Surface} (q : Blit) (px : S.Pixels) (p : ℕ × ℕ) : S.Pixels :=
  let srcData := hsGetPixel px (p.2 + q.sx) (q.sy + p.1)
  let destData := hsGetPixel px (p.2 + q.dx) (q.dy + p.1)
  hsPutPixel px (q.dx + p.2) (q.dy + p.1) (applyBlitLogOperation q.logOp destData srcData)

/-- `SoftVdiDriver::blitArea_S2S`.  SDL makes the copies of operation 3. -/
def Surface.blitAreaS2S {S : Surface} (hsBlitArea : Blit → S.Pixels → S.Pixels) (q : Blit)
    (px : S.Pixels) : S.Pixels :=
  if q.logOp = 3 then hsBlitArea q px else (grid q.h.toNat q.w.toNat).foldl (s2sStep q) px

/-- A round of the loops of `blitArea_M2M`, in row `p.1` and at `i = sx + p.2`. -/
def Mfdb.m2mStep {b : Deep} (M : Mfdb (.deep b)) (q : Blit) (mem : M.Memory)
    (p : ℕ × ℕ) : M.Memory :=
  let i := q.sx + p.2
  let offset := uint32 ((q.dx + i - q.sx) * b.bytes + (q.dy + p.1) * M.pitch)
  let srcData := (mem (uint32 (q.sy * M.pitch + p.1 * M.pitch + i * b.bytes))).setWidth 32
  let destData := (mem offset).setWidth 32
  Function.update mem offset ((applyBlitLogOperation q.logOp destData srcData).setWidth _)

/-- `VdiDriver::blitArea_M2M`, from a bitmap to itself.  There is no code for planes. -/
def Mfdb.blitAreaM2M : {d : MfdbDepth} → (M : Mfdb d) → Blit → M.Memory → M.Memory
  | .planes _, _, _, mem => mem
  | .deep _, M, q, mem => (grid q.h.toNat q.w.toNat).foldl (M.m2mStep q) mem

/-! ## Rectangles of cells -/

/-- What a pixel of the target becomes. -/
def Blit.expected (q : Blit) (src : ℤ → ℤ → U32) (i j : ℤ) (old : U32) : U32 :=
  applyBlitLogOperation q.logOp old (src (q.sx + i) (q.sy + j))

/-- A pixel of the source is also one of the target, and the loops get to it there first. -/
def Blit.Conflict (q : Blit) : Prop :=
  (q.sy < q.dy ∨ q.sy = q.dy ∧ q.sx < q.dx) ∧ q.dy - q.sy < q.h ∧ q.dx - q.sx < q.w ∧
    q.sx - q.dx < q.w
deriving Decidable

/-- The operation on pixels of `c` bits. -/
def combine {c : ℕ} (logOp : U32) (dst src : BitVec c) : BitVec c :=
  (applyBlitLogOperation logOp (dst.setWidth 32) (src.setWidth 32)).setWidth c

theorem combine_filled {c : ℕ} (hc : c ≤ 32) (logOp : U32) (d s : Bool) :
    combine logOp (filled c d) (filled c s) = filled c (opBit logOp d s) := by
  refine BitVec.eq_of_getLsbD_eq fun t ht => ?_
  have ht' : t < 32 := by omega
  rw [getLsbD_filled ht, combine, BitVec.getLsbD_setWidth, getLsbD_applyBlitLogOperation _ _ _ ht']
  simp only [BitVec.getLsbD_setWidth, getLsbD_filled ht, ht, ht', decide_true, Bool.true_and]

/-- Target and source of the rounds. -/
def copySteps (step pitch : ℤ) (q : Blit) : List (ℤ × ℤ) :=
  (grid q.h.toNat q.w.toNat).map fun p =>
    ((q.dy + p.1) * pitch + (q.dx + p.2) * step, (q.sy + p.1) * pitch + (q.sx + p.2) * step)

section
variable {c width height : ℕ} {step pitch : ℤ} {hc : c ≤ 32} {hstep : 0 < step}
    {hrow : step * width ≤ pitch} {q : Blit}

variable {B : Bitmap c} (hB : B = Bitmap.ofCells c width height step pitch hc hstep hrow)
include hB

theorem changed_iff_copyAll (htgt : B.Holds q.target) (m m' : ℤ → BitVec c) : B.Changed q.target
        (q.expected (B.pixel m)) m m' ↔
        m' = copyAll (combine q.logOp) (copySteps step pitch q) m := by
  let v : ℕ × ℕ → BitVec c := fun p => m ((q.sy + p.1) * pitch + (q.sx + p.2) * step)
  have hdots : ((copySteps step pitch q).map fun t => (t.1, m t.2)) =
      Bitmap.areaDots step pitch q.target v := by
    rw [copySteps, List.map_map]
    rfl
  have hall : B.Changed q.target
      (q.expected (B.pixel m)) m
      (copyAll (combine q.logOp) (copySteps step pitch q) m) := by
    subst hB
    rw [copyAll, hdots]
    refine Bitmap.changed_paint htgt fun p old => ?_
    rw [Blit.expected, Bitmap.pixel_ofCells]
    rfl
  refine ⟨fun h => h.unique hall, ?_⟩
  rintro rfl
  exact hall

theorem address_inj {x y x' y' : ℤ} (h : B.Inside x y) (h' : B.Inside x' y')
    (heq : y * pitch + x * step = y' * pitch + x' * step) : x = x' ∧ y = y' := by
  subst hB
  exact row_inj hstep hrow h.1 h.2.1 h'.1 h'.2.1 heq

theorem nodup_copySteps (htgt : B.Holds q.target) :
    ((copySteps step pitch q).map Prod.fst).Nodup := by
  rw [copySteps, List.map_map]
  refine .map_on (fun p hp p' hp' heq => ?_) (nodup_grid _ _)
  have hxy := address_inj hB (htgt.inside (target_contains hp))
    (htgt.inside (target_contains hp')) heq
  exact Prod.ext (by omega) (by omega)

/-- The rounds read what earlier ones have written only in a conflict. -/
theorem copySteps_pairwise_iff (hsrc : B.Holds q.source) (htgt : B.Holds q.target) :
    ((copySteps step pitch q).Pairwise fun t u => t.1 ≠ u.2) ↔ ¬ q.Conflict := by
  rw [copySteps, List.pairwise_map, pairwise_grid_iff]
  constructor
  · rintro hall ⟨horder, hh, hw, hw'⟩
    -- the pixels of source and target that meet, as near to the corner as possible
    have hp : ((0, (q.sx - q.dx).toNat) : ℕ × ℕ) ∈ grid q.h.toNat q.w.toNat :=
      mem_grid.2 ⟨by omega, by omega⟩
    have hp' : (((q.dy - q.sy).toNat, (q.dx - q.sx).toNat) : ℕ × ℕ) ∈ grid q.h.toNat q.w.toNat :=
      mem_grid.2 ⟨by omega, by omega⟩
    have hx : q.dx + ((q.sx - q.dx).toNat : ℤ) = q.sx + (q.dx - q.sx).toNat := by omega
    have hy : q.dy + ((0 : ℕ) : ℤ) = q.sy + (q.dy - q.sy).toNat := by omega
    have hbefore : Before (0, (q.sx - q.dx).toNat) ((q.dy - q.sy).toNat, (q.dx - q.sx).toNat) := by
      unfold Before
      omega
    refine hall _ hp _ hp' hbefore ?_
    rw [hx, hy]
  · intro hno p hp p' hp' hbefore heq
    have hxy := address_inj hB (htgt.inside (target_contains hp))
      (hsrc.inside (source_contains hp')) heq
    have hm := mem_grid.1 hp
    have hm' := mem_grid.1 hp'
    refine hno ?_
    unfold Blit.Conflict
    unfold Before at hbefore
    omega

/-- Where a round reads what another writes, the pixels of the two are different ones. -/
theorem copySteps_separate (hsrc : B.Holds q.source) (htgt : B.Holds q.target)
    (hconf : q.Conflict) :
    ∀ t ∈ copySteps step pitch q, ∀ u ∈ copySteps step pitch q, t.1 = u.2 → u.1 ≠ u.2 ∧ t.2 ≠ u.1 ∧
    t.2 ≠ u.2 := by
  intro t ht u hu htu
  obtain ⟨p, hp, rfl⟩ := List.mem_map.1 ht
  obtain ⟨p', hp', rfl⟩ := List.mem_map.1 hu
  have hd := htgt.inside (target_contains hp)
  have hs := hsrc.inside (source_contains hp)
  have hd' := htgt.inside (target_contains hp')
  have hs' := hsrc.inside (source_contains hp')
  have hxy := address_inj hB hd hs' htu
  unfold Blit.Conflict at hconf
  refine ⟨fun heq => ?_, fun heq => ?_, fun heq => ?_⟩
  · have := address_inj hB hd' hs' heq
    omega
  · have := address_inj hB hs hd' heq
    omega
  · have := address_inj hB hs hs' heq
    omega

omit hB in
theorem combine_usesSource (hpos : 0 < c) (hc : c ≤ 32) {logOp : U32} (huse : UsesSource logOp) :
    ∃ d₂ d s : BitVec c, combine logOp d₂ (combine logOp d s) ≠ combine logOp d₂ d := by
  obtain ⟨d₂, d, s, hne⟩ := opBit_of_usesSource huse
  refine ⟨filled c d₂, filled c d, filled c s, fun heq => hne ?_⟩
  rw [combine_filled hc, combine_filled hc, combine_filled hc] at heq
  rw [← getLsbD_filled hpos (opBit logOp d₂ _), heq, getLsbD_filled hpos]

/-- The rounds in raster order are right without a conflict, and if the source does not matter. -/
theorem copySeq_changed_iff (hpos : 0 < c) (hsrc : B.Holds q.source) (htgt : B.Holds q.target) :
    (∀ m : ℤ → BitVec c, B.Changed q.target (q.expected (B.pixel m)) m
        (copySeq (combine q.logOp) (copySteps step pitch q) m)) ↔ ¬ UsesSource q.logOp ∨
        ¬ q.Conflict := by
  simp only [changed_iff_copyAll hB htgt]
  constructor
  · intro hall
    by_contra hno
    simp only [not_or, not_not] at hno
    obtain ⟨huse, hconf⟩ := hno
    have hiff :=
      copySeq_eq_iff (nodup_copySteps hB htgt) (copySteps_separate hB hsrc htgt hconf)
        (combine_usesSource hpos hc huse)
    exact (copySteps_pairwise_iff hB hsrc htgt).1 (hiff.1 hall) hconf
  · rintro (huse | hno) m
    · refine copySeq_eq_of_const (fun d s s' => ?_) _ m
      rw [combine, combine, applyBlitLogOperation_of_not_usesSource huse]
    · exact copySeq_eq ((copySteps_pairwise_iff hB hsrc htgt).2 hno) m

end

/-! ## The loops -/

theorem Surface.s2s_eq {S : Surface} {q : Blit} (hsrc : S.bitmap.Holds q.source)
    (htgt : S.bitmap.Holds q.target)
    (px : S.Pixels) : (grid q.h.toNat q.w.toNat).foldl (s2sStep q) px =
      copySeq (combine q.logOp) (copySteps S.bytes S.pitch q) px := by
  rw [copySeq, copySteps, List.foldl_map]
  refine List.foldl_ext _ _ _ fun px p hp => ?_
  have hs : S.Inside (q.sx + p.2) (q.sy + p.1) := hsrc.inside (source_contains hp)
  have hd : S.Inside (q.dx + p.2) (q.dy + p.1) := htgt.inside (target_contains hp)
  rw [s2sStep, add_comm (p.2 : ℤ) q.sx, add_comm (p.2 : ℤ) q.dx, hsGetPixel, hsGetPixel, hsPutPixel,
    if_pos hs, if_pos hd, if_pos hd]
  rfl

theorem Mfdb.m2m_eq {b : Deep} {M : Mfdb (.deep b)} {q : Blit} (hsrc : M.Holds q.source)
    (htgt : M.Holds q.target)
    (mem : M.Memory) : (grid q.h.toNat q.w.toNat).foldl (M.m2mStep q) mem =
      copySeq (combine q.logOp) (copySteps b.bytes M.pitch q) mem := by
  rw [copySeq, copySteps, List.foldl_map]
  refine List.foldl_ext _ _ _ fun mem p hp => ?_
  have hs := uint32_deep (hsrc.bitmap.inside (source_contains hp))
  have hd := uint32_deep (htgt.bitmap.inside (target_contains hp))
  have hs' : q.sy * (M.pitch : ℤ) + p.1 * M.pitch + (q.sx + p.2) * b.bytes =
      (q.sy + p.1) * M.pitch + (q.sx + p.2) * b.bytes := by ring
  have hd' : (q.dx + (q.sx + p.2) - q.sx) * (b.bytes : ℤ) + (q.dy + p.1) * M.pitch =
      (q.dy + p.1) * M.pitch + (q.dx + p.2) * b.bytes := by ring
  rw [m2mStep, hs', hd', hs, hd]
  rfl

/-! ## Planes -/

/-- Leaving the memory alone is right only if the operation keeps all pixels of the target. -/
theorem unchanged_iff {c : ℕ} {B : Bitmap c} {q : Blit} (hdepth : 0 < B.depth)
    (hsrc : B.Holds q.source) (htgt : B.Holds q.target) :
    (∀ m : ℤ → BitVec c, B.Changed q.target (q.expected (B.pixel m)) m m) ↔
      q.w = 0 ∨ q.h = 0 ∨ KeepsDestination q.logOp ∨
      (q.sx = q.dx ∧ q.sy = q.dy ∧ KeepsEqual q.logOp) := by
  -- a bit of the target and the bit that is expected there
  have hbit : ∀ (m : ℤ → BitVec c) (x y : ℤ), ∀ b < B.depth,
      (q.expected (B.pixel m) (x - q.dx) (y - q.dy) (B.pixel m x y)).getLsbD b =
        opBit q.logOp (B.bit m x y b) (B.bit m (q.sx + (x - q.dx)) (q.sy + (y - q.dy)) b) := by
    intro m x y b hb
    rw [Blit.expected, getLsbD_applyBlitLogOperation _ _ _ (hb.trans_le B.depth_le),
      B.getLsbD_pixel _ _ _ hb, B.getLsbD_pixel _ _ _ hb]
  have hiff : (∀ m : ℤ → BitVec c, B.Changed q.target (q.expected (B.pixel m)) m m) ↔
      ∀ (m : ℤ → BitVec c) (x y : ℤ), q.target.Contains x y → ∀ b < B.depth,
        B.bit m x y b =
        opBit q.logOp (B.bit m x y b) (B.bit m (q.sx + (x - q.dx)) (q.sy + (y - q.dy)) b) := by
    constructor
    · intro h m x y hxy b hb
      rw [← hbit m x y b hb]
      exact (h m).inside x y hxy b hb
    · intro h m
      refine ⟨fun x y hxy b hb => ?_, fun _ _ _ _ _ _ => rfl, fun _ _ _ _ => rfl⟩
      rw [Blit.target, hbit m x y b hb]
      exact h m x y hxy b hb
  rw [hiff]
  have hw0 : 0 ≤ q.w := htgt.2.1
  have hh0 : 0 ≤ q.h := htgt.2.2.2.2.1
  constructor
  · intro h
    by_contra hno
    simp only [not_or] at hno
    obtain ⟨hw, hh, hkeep, heq⟩ := hno
    obtain ⟨⟨d, s, hds⟩, hself⟩ := opBit_changes hkeep
    have hd := target_corner (q := q) (by omega) (by omega)
    have hs := source_corner (q := q) (by omega) (by omega)
    have hcorner := fun m => h m q.dx q.dy hd 0 hdepth
    simp only [sub_self, add_zero] at hcorner
    by_cases hsame : q.sx = q.dx ∧ q.sy = q.dy
    · refine heq ⟨hsame.1, hsame.2, hself.1 fun d => ?_⟩
      have hm := hcorner (Bitmap.memory c fun _ _ => d)
      rw [B.bit_memory _ _ _ hdepth, B.bit_memory _ _ _ hdepth] at hm
      exact hm.symm
    · have hm := hcorner (B.spot q.dx q.dy d s)
      rw [B.bit_spot (htgt.inside hd) (htgt.inside hd) hdepth,
        B.bit_spot (htgt.inside hd) (hsrc.inside hs) hdepth, if_pos ⟨rfl, rfl⟩, if_neg hsame] at hm
      exact hds hm.symm
  · rintro (hw | hh | hkeep | ⟨hx, hy, hself⟩) m x y hxy b hb
    · exact absurd hxy (Area.not_contains_of_empty (.inl hw) x y)
    · exact absurd hxy (Area.not_contains_of_empty (.inr hh) x y)
    · rw [opBit_of_keepsDestination hkeep]
    · rw [hx, hy, add_sub_cancel, add_sub_cancel]
      by_cases hkeep : KeepsDestination q.logOp
      · rw [opBit_of_keepsDestination hkeep]
      · exact ((opBit_changes hkeep).2.2 hself _).symm

/-! ## Copies -/

/-- The bitmaps that are copied within. -/
inductive Target
  | screen (S : Surface)
  | memory (d : MfdbDepth) (M : Mfdb d)

namespace Target

/-- The bits of a cell. -/
def cellBits : Target → ℕ
  | screen S => 8 * S.bytes
  | memory d _ => d.cellBits

/-- Its pixels. -/
def bitmap : (T : Target) → Bitmap T.cellBits
  | screen S => S.bitmap
  | memory _ M => M.bitmap

/-- The area is in it. -/
def Holds : Target → Area → Prop
  | screen S, r => S.bitmap.Holds r
  | memory _ M, r => M.Holds r

/-- A blit from the bitmap to itself. -/
def blit (hsBlitArea : (S : Surface) → Blit → S.Pixels → S.Pixels) :
    (T : Target) → Blit → (ℤ → BitVec T.cellBits) → ℤ → BitVec T.cellBits
  | screen S, q, px => S.blitAreaS2S (hsBlitArea S) q px
  | memory _ M, q, mem => M.blitAreaM2M q mem

end Target

/-- The target is as if the source had been read before any pixel was written. -/
def CopiedAtOnce (hsBlitArea : (S : Surface) → Blit → S.Pixels → S.Pixels) (T : Target)
    (q : Blit) : Prop :=
  ∀ m : ℤ → BitVec T.cellBits,
    T.bitmap.Changed q.target (q.expected (T.bitmap.pixel m)) m (T.blit hsBlitArea q m)

/-- SDL copies correctly within a surface. -/
def SdlCopies (hsBlitArea : (S : Surface) → Blit → S.Pixels → S.Pixels) : Prop :=
  ∀ (S : Surface) (q : Blit) (px : S.Pixels), q.logOp = 3 → S.bitmap.Holds q.source →
    S.bitmap.Holds q.target →
    S.bitmap.Changed q.target (q.expected (S.bitmap.pixel px)) px (hsBlitArea S q px)

/-- When a copy is right. -/
def CopyOk : Target → Blit → Prop
  | .screen _, q => q.logOp = 3 ∨ ¬ UsesSource q.logOp ∨ ¬ q.Conflict
  | .memory (.deep _) _, q => ¬ UsesSource q.logOp ∨ ¬ q.Conflict
  | .memory (.planes _) _, q =>
    q.w = 0 ∨ q.h = 0 ∨ KeepsDestination q.logOp ∨ (q.sx = q.dx ∧ q.sy = q.dy ∧ KeepsEqual q.logOp)

/-- Copies on the screen and within memory bitmaps. -/
theorem copied_at_once_iff {hsBlitArea : (S : Surface) → Blit → S.Pixels → S.Pixels}
    (hsdl : SdlCopies hsBlitArea) (T : Target) (q : Blit) (hsrc : T.Holds q.source)
    (htgt : T.Holds q.target) : CopiedAtOnce hsBlitArea T q ↔ CopyOk T q := by
  cases T with
  | screen S =>
    by_cases hop : q.logOp = 3
    · refine ⟨fun _ => .inl hop, fun _ px => ?_⟩
      have hblit : (Target.screen S).blit hsBlitArea q px = hsBlitArea S q px := if_pos hop
      rw [hblit]
      exact hsdl S q px hop hsrc htgt
    · have hpos : 0 < 8 * S.bytes := Nat.mul_pos (by decide) S.depth.bytes_pos
      have hblit : ∀ px, S.blitAreaS2S (hsBlitArea S) q px =
          copySeq (combine q.logOp) (copySteps S.bytes S.pitch q) px := fun px => by
        rw [Surface.blitAreaS2S, if_neg hop, Surface.s2s_eq hsrc htgt]
      have hiff := copySeq_changed_iff rfl hpos hsrc htgt
      simp only [← hblit] at hiff
      refine .trans hiff ⟨fun h => .inr h, fun h => h.resolve_left hop⟩
  | memory d M =>
    cases d with
    | planes p => exact unchanged_iff p.count_pos hsrc.bitmap htgt.bitmap
    | deep b =>
      have hpos : 0 < 8 * b.bytes := Nat.mul_pos (by decide) (Int.natCast_pos.1 b.bytes_pos)
      have hblit : ∀ mem,
        M.blitAreaM2M q mem = copySeq (combine q.logOp) (copySteps b.bytes M.pitch q) mem :=
        fun mem => Mfdb.m2m_eq hsrc htgt mem
      have hiff :=
        @copySeq_changed_iff _ _ _ _ _ b.bits_le b.bytes_pos M.deep_row q _ rfl hpos
          hsrc.bitmap htgt.bitmap
      refine .trans (forall_congr' fun mem => ?_) hiff
      show M.bitmap.Changed q.target _ mem (M.blitAreaM2M q mem) ↔ _
      rw [hblit mem]
      exact .rfl

/-- A copy within a surface as SDL makes it. -/
def sdlCopy (S : Surface) (q : Blit) (px : S.Pixels) : S.Pixels :=
  copyAll (combine q.logOp) (copySteps S.bytes S.pitch q) px

theorem sdlCopies_sdlCopy : SdlCopies sdlCopy :=
  fun _ _ px _ _ htgt => (changed_iff_copyAll rfl htgt px _).2 rfl

theorem left_copied : CopiedAtOnce sdlCopy (.memory _ smallMfdb) ⟨1, 0, 0, 0, 2, 1, 3⟩ :=
  (copied_at_once_iff sdlCopies_sdlCopy (.memory _ smallMfdb) ⟨1, 0, 0, 0, 2, 1, 3⟩
    ⟨by decide, by decide, by decide, by decide, by decide, by decide⟩
    ⟨by decide, by decide, by decide, by decide, by decide, by decide⟩).2 (.inr (by decide))

/-- Two pixels moved one to the right: the second is read after it was overwritten. -/
theorem right_not_copied : ∃ (T : Target) (q : Blit), T.Holds q.source ∧ T.Holds q.target ∧
    ∀ hsBlitArea, ¬ CopiedAtOnce hsBlitArea T q := by
  let q : Blit := ⟨0, 0, 1, 0, 2, 1, 3⟩
  let mem : smallMfdb.Memory := fun a => if a = 0 then 1 else 0
  refine ⟨.memory _ smallMfdb, q,
    ⟨by decide, by decide, by decide, by decide, by decide, by decide⟩,
    ⟨by decide, by decide, by decide, by decide, by decide, by decide⟩, fun hsBlitArea h => ?_⟩
  have hbit : smallMfdb.bitmap.bit (smallMfdb.blitAreaM2M q mem) 2 0 0 =
      (q.expected (smallMfdb.bitmap.pixel mem) 1 0 (smallMfdb.bitmap.pixel mem 2 0)).getLsbD 0 :=
    (h mem).inside 2 0 (by decide) 0 (by decide)
  have hgot : smallMfdb.bitmap.bit (smallMfdb.blitAreaM2M q mem) 2 0 0 = true := by decide +kernel
  have hwant : (q.expected (smallMfdb.bitmap.pixel mem) 1 0
      (smallMfdb.bitmap.pixel mem 2 0)).getLsbD 0 = false := by
    decide +kernel
  exact absurd hbit (by decide)

end Aranym.Vdi
