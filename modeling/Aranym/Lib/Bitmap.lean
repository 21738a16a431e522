/-
  Bitmaps in memory.

  A memory consists of cells of `c` bits.  A `Bitmap` says in which cell, and
  where in the cell, every bit of every pixel is.  `Changed` says that a rectangle of
  pixels was changed in a given way and nothing else was, which leaves one possible
  memory.
-/
import Aranym.Lib.Raster
import Mathlib.Data.BitVec
import Mathlib.Tactic.Positivity
import Mathlib.Tactic.Ring

namespace Lib

open List

/-- A rectangle of pixels. -/
structure Area where
  x : ℤ
  y : ℤ
  w : ℤ
  h : ℤ
  deriving DecidableEq, Repr

namespace Area

/-- The point is in it. -/
def Contains (r : Area) (x y : ℤ) : Prop := r.x ≤ x ∧ x < r.x + r.w ∧ r.y ≤ y ∧ y < r.y + r.h
deriving Decidable

theorem not_contains_of_empty {r : Area} (h : r.w = 0 ∨ r.h = 0) (x y : ℤ) : ¬ r.Contains x y := by
  unfold Contains
  omega

end Area

/-- The `n` lowest bits. -/
def ofBits (f : ℕ → Bool) : (n : ℕ) → BitVec n
  | 0 => 0
  | n + 1 => (ofBits f n).cons (f n)

theorem getLsbD_ofBits (f : ℕ → Bool) {n b : ℕ} (hb : b < n) : (ofBits f n).getLsbD b = f b := by
  induction n with
  | zero => omega
  | succ n ih =>
    rw [ofBits, BitVec.getLsbD_cons]
    split_ifs with h
    · rw [h]
    · exact ih (by omega)

theorem toNat_ofBits (f : ℕ → Bool) (n : ℕ) :
    (ofBits f n).toNat = ∑ b ∈ Finset.range n, 2 ^ b * (f b).toNat := by
  induction n with
  | zero => rfl
  | succ n ih =>
    rw [ofBits, BitVec.toNat_cons, Finset.sum_range_succ, ← ih,
      ← Nat.shiftLeft_add_eq_or_of_lt (ofBits f n).isLt,
      Nat.shiftLeft_eq, Nat.add_comm, Nat.mul_comm]

/-- Where the bits of pixels are, in cells of `c` bits. -/
structure Bitmap (c : ℕ) where
  width : ℕ
  height : ℕ
  depth : ℕ
  cell : ℤ → ℤ → ℕ → ℤ
  pos : ℤ → ℤ → ℕ → ℕ
  depth_le : depth ≤ 32
  pos_lt : ∀ x y b, b < depth → pos x y b < c
  inj : ∀ (x y : ℤ) (b : ℕ) (x' y' : ℤ) (b' : ℕ), 0 ≤ x ∧ x < width ∧ 0 ≤ y ∧
    y < height → b < depth →
    0 ≤ x' ∧ x' < width ∧ 0 ≤ y' ∧ y' < height → b' < depth →
    cell x y b = cell x' y' b' → pos x y b = pos x' y' b' → x = x' ∧ y = y' ∧ b = b'

namespace Bitmap

variable {c : ℕ} (B : Bitmap c)

variable (m : ℤ → BitVec c) (x y : ℤ)

/-- The point is on it. -/
def Inside : Prop := 0 ≤ x ∧ x < B.width ∧ 0 ≤ y ∧ y < B.height
deriving Decidable

/-- The rectangle is in the bitmap. -/
def Holds (r : Area) : Prop := 0 ≤ r.x ∧ 0 ≤ r.w ∧ r.x + r.w ≤ B.width ∧ 0 ≤ r.y ∧ 0 ≤ r.h ∧
    r.y + r.h ≤ B.height
deriving Decidable

/-- Bit `b` of a pixel. -/
def bit (b : ℕ) : Bool := (m (B.cell x y b)).getLsbD (B.pos x y b)

/-- A pixel. -/
def pixel : BitVec 32 := ofBits (fun b => decide (b < B.depth) && B.bit m x y b) 32

theorem getLsbD_pixel {b : ℕ} (hb : b < B.depth) : (B.pixel m x y).getLsbD b = B.bit m x y b := by
  have h32 : b < 32 := hb.trans_le B.depth_le
  rw [pixel, getLsbD_ofBits _ h32]
  simp [hb]

/-- The memory with given bits. -/
def memory (c : ℕ) (g : ℤ → ℕ → Bool) (a : ℤ) : BitVec c := ofBits (g a) c

theorem bit_memory (g : ℤ → ℕ → Bool) (x y : ℤ) {b : ℕ} (hb : b < B.depth) :
    B.bit (memory c g) x y b = g (B.cell x y b) (B.pos x y b) :=
  getLsbD_ofBits _ (B.pos_lt x y b hb)

/-- The lowest bit of one pixel is `d`, and all other bits are `s`. -/
def spot (d s : Bool) : ℤ → BitVec c := memory c fun a t => if a = B.cell x y 0 ∧
    t = B.pos x y 0 then d else s

theorem bit_spot {x y x' y' : ℤ} (hin : B.Inside x y) (hin' : B.Inside x' y') (hdepth : 0 < B.depth)
    (d s : Bool) : B.bit (B.spot x y d s) x' y' 0 = if x' = x ∧ y' = y then d else s := by
  rw [spot, B.bit_memory _ _ _ hdepth]
  congr 1
  simp only [eq_iff_iff]
  constructor
  · rintro ⟨hcell, hpos⟩
    obtain ⟨hx, hy, -⟩ := B.inj _ _ _ _ _ _ hin' hdepth hin hdepth hcell hpos
    exact ⟨hx, hy⟩
  · rintro ⟨rfl, rfl⟩
    exact ⟨rfl, rfl⟩

/-- The pixels of `r` are changed, each as `new` says for its column and row, and nothing else
    is. -/
structure Changed (r : Area) (new : ℤ → ℤ → BitVec 32 → BitVec 32)
    (m m' : ℤ → BitVec c) : Prop where
  inside : ∀ x y, r.Contains x y → ∀ b < B.depth,
    B.bit m' x y b = (new (x - r.x) (y - r.y) (B.pixel m x y)).getLsbD b
  outside : ∀ x y, B.Inside x y → ¬ r.Contains x y → ∀ b < B.depth, B.bit m' x y b = B.bit m x y b
  rest : ∀ a, ∀ t < c,
    (∀ x y, B.Inside x y → ∀ b < B.depth, ¬ (B.cell x y b = a ∧ B.pos x y b = t)) →
    (m' a).getLsbD t = (m a).getLsbD t

variable {B} {r : Area} {new : ℤ → ℤ → BitVec 32 → BitVec 32} {m m' m'' : ℤ → BitVec c}

theorem Changed.unique (h : B.Changed r new m m') (h' : B.Changed r new m m'') : m' = m'' := by
  funext a
  refine BitVec.eq_of_getLsbD_eq fun t ht => ?_
  by_cases hbit : ∃ x y, B.Inside x y ∧ ∃ b < B.depth, B.cell x y b = a ∧ B.pos x y b = t
  · obtain ⟨x, y, hin, b, hb, rfl, rfl⟩ := hbit
    by_cases hr : r.Contains x y
    · exact (h.inside x y hr b hb).trans (h'.inside x y hr b hb).symm
    · exact (h.outside x y hin hr b hb).trans (h'.outside x y hin hr b hb).symm
  · have hno : ∀ x y, B.Inside x y → ∀ b < B.depth, ¬ (B.cell x y b = a ∧ B.pos x y b = t) :=
      fun x y hin b hb heq => hbit ⟨x, y, hin, b, hb, heq⟩
    exact (h.rest a t ht hno).trans (h'.rest a t ht hno).symm

theorem changed_of_empty (hr : r.w = 0 ∨ r.h = 0) : B.Changed r new m m :=
  ⟨fun x y hxy => absurd hxy (Area.not_contains_of_empty hr x y), fun _ _ _ _ _ _ => rfl,
    fun _ _ _ _ => rfl⟩

theorem Holds.inside (h : B.Holds r) {x y : ℤ} (hr : r.Contains x y) : B.Inside x y := by
  obtain ⟨h1, h2, h3, h4, h5, h6⟩ := h
  obtain ⟨h7, h8, h9, h10⟩ := hr
  exact ⟨by omega, by omega, by omega, by omega⟩

/-! ## Pixel by pixel -/

/-- One pixel is set. -/
def put (B : Bitmap c) (m : ℤ → BitVec c) (x y : ℤ) (v : BitVec 32) : ℤ → BitVec c :=
  memory c fun a t =>
    decide ((∃ b < B.depth, (B.cell x y b = a ∧ B.pos x y b = t) ∧ v.getLsbD b = true) ∨
      ((∀ b < B.depth, ¬ (B.cell x y b = a ∧ B.pos x y b = t)) ∧ (m a).getLsbD t = true))

section
variable {x y x' y' : ℤ} {v : BitVec 32}

theorem getLsbD_put_of_not {a : ℤ} {t : ℕ} (ht : t < c)
    (hno : ∀ b < B.depth, ¬ (B.cell x y b = a ∧ B.pos x y b = t)) :
    (B.put m x y v a).getLsbD t = (m a).getLsbD t := by
  have hnone : ¬ ∃ b < B.depth, (B.cell x y b = a ∧ B.pos x y b = t) ∧ v.getLsbD b = true := by
    rintro ⟨b, hb, heq, -⟩
    exact hno b hb heq
  rw [put, memory, getLsbD_ofBits _ ht]
  simp only [hnone, false_or, and_iff_right hno, Bool.decide_eq_true]

theorem bit_put_self (hin : B.Inside x y) {b : ℕ} (hb : b < B.depth) :
    B.bit (B.put m x y v) x y b = v.getLsbD b := by
  have hsome : (∃ b' < B.depth, (B.cell x y b' = B.cell x y b ∧ B.pos x y b' = B.pos x y b) ∧
    v.getLsbD b' = true) ↔
      v.getLsbD b = true := by
    constructor
    · rintro ⟨b', hb', ⟨hcell, hpos⟩, hv⟩
      obtain ⟨-, -, rfl⟩ := B.inj _ _ _ _ _ _ hin hb' hin hb hcell hpos
      exact hv
    · exact fun hv => ⟨b, hb, ⟨rfl, rfl⟩, hv⟩
  have hnone : ¬ ∀ b' < B.depth, ¬ (B.cell x y b' = B.cell x y b ∧ B.pos x y b' = B.pos x y b) :=
    fun hall => hall b hb ⟨rfl, rfl⟩
  rw [put, B.bit_memory _ _ _ hb]
  simp only [hsome, hnone, false_and, or_false, Bool.decide_eq_true]

theorem bit_put_of_ne (hin : B.Inside x y) (hin' : B.Inside x' y') (hne : ¬ (x' = x ∧ y' = y))
    {b : ℕ} (hb : b < B.depth) : B.bit (B.put m x y v) x' y' b = B.bit m x' y' b := by
  refine getLsbD_put_of_not (B.pos_lt _ _ _ hb) fun b' hb' => ?_
  rintro ⟨hcell, hpos⟩
  obtain ⟨hx, hy, -⟩ := B.inj _ _ _ _ _ _ hin hb' hin' hb hcell hpos
  exact hne ⟨hx.symm, hy.symm⟩

theorem pixel_put_of_ne (hin : B.Inside x y) (hin' : B.Inside x' y') (hne : ¬ (x' = x ∧ y' = y)) :
    B.pixel (B.put m x y v) x' y' = B.pixel m x' y' := by
  unfold pixel
  congr 1
  funext b
  by_cases hb : b < B.depth
  · rw [bit_put_of_ne hin hin' hne hb]
  · rw [decide_eq_false hb, Bool.false_and, Bool.false_and]

end

/-- The pixels of a list of positions in a rectangle are changed one after the other. -/
def putAll (B : Bitmap c) (r : Area) (new : ℤ → ℤ → BitVec 32 → BitVec 32) (l : List (ℕ × ℕ))
    (m : ℤ → BitVec c) : ℤ → BitVec c :=
  l.foldl (fun m p => B.put m (r.x + p.2) (r.y + p.1)
    (new p.2 p.1 (B.pixel m (r.x + p.2) (r.y + p.1)))) m

theorem putAll_spec : ∀ {l : List (ℕ × ℕ)}, l.Nodup → (∀ p ∈ l, B.Inside (r.x + p.2) (r.y + p.1)) →
    ∀ m : ℤ → BitVec c,
    (∀ p ∈ l, ∀ b < B.depth, B.bit (B.putAll r new l m) (r.x + p.2) (r.y + p.1) b =
      (new p.2 p.1 (B.pixel m (r.x + p.2) (r.y + p.1))).getLsbD b) ∧
    (∀ x y, B.Inside x y → (∀ p ∈ l, ¬ (x = r.x + p.2 ∧ y = r.y + p.1)) → ∀ b < B.depth,
      B.bit (B.putAll r new l m) x y b = B.bit m x y b) ∧
    ∀ a, ∀ t < c, (∀ x y, B.Inside x y → ∀ b < B.depth, ¬ (B.cell x y b = a ∧ B.pos x y b = t)) →
      (B.putAll r new l m a).getLsbD t = (m a).getLsbD t
  | [], _, _, m => ⟨by simp, fun _ _ _ _ _ _ => rfl, fun _ _ _ _ => rfl⟩
  | p :: l, hn, hin, m => by
    rw [nodup_cons] at hn
    have hp := hin p mem_cons_self
    obtain ⟨hset, hkeep, hrest⟩ := putAll_spec hn.2 (fun p' hp' => hin p' (mem_cons_of_mem p hp'))
      (B.put m (r.x + p.2) (r.y + p.1) (new p.2 p.1 (B.pixel m (r.x + p.2) (r.y + p.1))))
    have hdiff : ∀ p' ∈ l, ¬ (r.x + (p'.2 : ℤ) = r.x + p.2 ∧ r.y + (p'.1 : ℤ) = r.y + p.1) := by
      rintro p' hp' ⟨hx, hy⟩
      have heq : p' = p := Prod.ext (by omega) (by omega)
      exact hn.1 (heq ▸ hp')
    refine ⟨fun p' hp' b hb => ?_, fun x y hxy hno b hb => ?_, fun a t ht hno => ?_⟩
    · rcases List.mem_cons.1 hp' with rfl | hp'
      · refine (hkeep _ _ hp (fun p'' hp'' heq => hdiff p'' hp'' ⟨heq.1.symm, heq.2.symm⟩)
          b hb).trans ?_
        exact bit_put_self hp hb
      · refine (hset p' hp' b hb).trans ?_
        rw [pixel_put_of_ne hp (hin p' (mem_cons_of_mem p hp')) (hdiff p' hp')]
    · refine (hkeep x y hxy (fun p' hp' => hno p' (mem_cons_of_mem p hp')) b hb).trans ?_
      exact bit_put_of_ne hp hxy (hno p mem_cons_self) hb
    · exact (hrest a t ht hno).trans (getLsbD_put_of_not ht (hno _ _ hp))

theorem changed_putAll (hr : B.Holds r) (m : ℤ → BitVec c) :
    B.Changed r new m (B.putAll r new (grid r.h.toNat r.w.toNat) m) := by
  have hin : ∀ p ∈ grid r.h.toNat r.w.toNat, B.Inside (r.x + p.2) (r.y + p.1) := by
    intro p hp
    have hp' := mem_grid.1 hp
    exact hr.inside ⟨by omega, by omega, by omega, by omega⟩
  obtain ⟨hset, hkeep, hrest⟩ := putAll_spec (nodup_grid _ _) hin m
  refine ⟨fun x y hxy b hb => ?_, fun x y hxy hno b hb => ?_, hrest⟩
  · obtain ⟨h1, h2, h3, h4⟩ := hxy
    have hp : ((y - r.y).toNat, (x - r.x).toNat) ∈ grid r.h.toNat r.w.toNat :=
      mem_grid.2 ⟨by omega, by omega⟩
    have hbit := hset _ hp b hb
    have hx : (((x - r.x).toNat : ℕ) : ℤ) = x - r.x := by omega
    have hy : (((y - r.y).toNat : ℕ) : ℤ) = y - r.y := by omega
    rw [hx, hy, add_sub_cancel, add_sub_cancel] at hbit
    exact hbit
  · refine hkeep x y hxy (fun p hp heq => hno ?_) b hb
    have hp' := mem_grid.1 hp
    exact ⟨by omega, by omega, by omega, by omega⟩

/-! ## Pixels that are cells -/

/-- Pixels of `c` bits, `step` apart in rows that are `pitch` apart. -/
def ofCells (c width height : ℕ) (step pitch : ℤ) (hc : c ≤ 32) (hstep : 0 < step)
    (hrow : step * width ≤ pitch) :
    Bitmap c where
  width := width
  height := height
  depth := c
  cell x y _ := y * pitch + x * step
  pos _ _ b := b
  depth_le := hc
  pos_lt _ _ _ hb := hb
  inj x y b x' y' b' hin _ hin' _ hcell hpos := by
    have hxy := row_inj hstep hrow hin.1 hin.2.1 hin'.1 hin'.2.1 hcell
    exact ⟨hxy.1, hxy.2, hpos⟩

section
variable {width height : ℕ} {step pitch : ℤ} {hc : c ≤ 32} {hstep : 0 < step}
    {hrow : step * width ≤ pitch}

theorem pixel_ofCells (m : ℤ → BitVec c) (x y : ℤ) :
    (ofCells c width height step pitch hc hstep hrow).pixel m x y =
      (m (y * pitch + x * step)).setWidth 32 := by
  refine BitVec.eq_of_getLsbD_eq fun b hb => ?_
  by_cases hbc : b < c
  · rw [getLsbD_pixel _ _ _ _ hbc, BitVec.getLsbD_setWidth]
    simp [hb, bit, ofCells]
  · rw [BitVec.getLsbD_setWidth, BitVec.getLsbD_of_ge _ _ (by omega : c ≤ b)]
    simp [pixel, getLsbD_ofBits _ hb, ofCells, hbc]

/-- The cells of a rectangle, row by row, with a value for each. -/
def areaDots {β : Type*} (step pitch : ℤ) (r : Area) (v : ℕ × ℕ → β) : List (ℤ × β) :=
  (grid r.h.toNat r.w.toNat).map fun p => ((r.y + p.1) * pitch + (r.x + p.2) * step, v p)

theorem changed_paint {β : Type*} {f : β → BitVec c → BitVec c} {v : ℕ × ℕ → β}
    (hr : (ofCells c width height step pitch hc hstep hrow).Holds r)
    (hnew : ∀ p : ℕ × ℕ, ∀ old : BitVec c,
      f (v p) old = (new p.2 p.1 (old.setWidth 32)).setWidth c) :
    (ofCells c width height step pitch hc hstep hrow).Changed r new m
      (paint f (areaDots step pitch r v) m) := by
  have hmem : ∀ p ∈ grid r.h.toNat r.w.toNat, r.Contains (r.x + p.2) (r.y + p.1) := by
    intro p hp
    have hp' := mem_grid.1 hp
    exact ⟨by omega, by omega, by omega, by omega⟩
  have hnodup : ((areaDots step pitch r v).map Prod.fst).Nodup := by
    rw [areaDots, map_map]
    refine List.Nodup.map_on (fun p hp q hq heq => ?_) (nodup_grid _ _)
    have hp' := hr.inside (hmem p hp)
    have hq' := hr.inside (hmem q hq)
    have hxy := row_inj hstep hrow hp'.1 hp'.2.1 hq'.1 hq'.2.1 heq
    exact Prod.ext (by omega) (by omega)
  have hout : ∀ a, (∀ x y, r.Contains x y → y * pitch + x * step ≠ a) →
      paint f (areaDots step pitch r v) m a = m a := by
    intro a ha
    refine paint_apply_of_not_mem fun hmem' => ?_
    simp only [areaDots, map_map, mem_map, Function.comp_apply] at hmem'
    obtain ⟨p, hp, heq⟩ := hmem'
    exact ha _ _ (hmem p hp) heq
  refine ⟨fun x y hxy b hb => ?_, fun x y hin hxy b hb => ?_, fun a t ht hno => ?_⟩
  · obtain ⟨h1, h2, h3, h4⟩ := id hxy
    have hp : ((y - r.y).toNat, (x - r.x).toNat) ∈ grid r.h.toNat r.w.toNat :=
      mem_grid.2 ⟨by omega, by omega⟩
    have hdot := paint_apply_of_mem (f := f) (m := m) hnodup (mem_map_of_mem hp)
    rw [show r.y + ((y - r.y).toNat : ℤ) = y by omega,
      show r.x + ((x - r.x).toNat : ℤ) = x by omega, hnew] at hdot
    rw [pixel_ofCells]
    show (paint f (areaDots step pitch r v) m (y * pitch + x * step)).getLsbD b = _
    rw [hdot, BitVec.getLsbD_setWidth, show ((x - r.x).toNat : ℤ) = x - r.x by omega,
      show ((y - r.y).toNat : ℤ) = y - r.y by omega]
    have hbc : b < c := hb
    simp [hbc]
  · have hkeep := hout (y * pitch + x * step) fun x' y' hxy' heq => by
      have hin' := hr.inside hxy'
      have heq' := row_inj hstep hrow hin'.1 hin'.2.1 hin.1 hin.2.1 heq
      rw [heq'.1, heq'.2] at hxy'
      exact hxy hxy'
    show (paint f (areaDots step pitch r v) m (y * pitch + x * step)).getLsbD b = _
    rw [hkeep]
    rfl
  · rw [hout a fun x y hxy heq => hno x y (hr.inside hxy) t ht ⟨heq, rfl⟩]

end

/-! ## Planes -/

/-- Bit planes: a row is a sequence of groups of 16 pixels, and a group one word for each plane. -/
def ofPlanes (planes wdwidth height : ℕ) (hp : planes ≤ 32) : Bitmap 16 where
  width := 16 * wdwidth
  height := height
  depth := planes
  cell x y b := y * (wdwidth * planes * 2 : ℕ) + (x / 16 * planes + b) * 2
  pos x _ _ := (15 - x % 16).toNat
  depth_le := hp
  pos_lt _ _ _ _ := by omega
  inj x y b x' y' b' hin hb hin' hb' hcell hpos := by
    have hrow : (2 : ℤ) * (wdwidth * planes : ℕ) ≤ (wdwidth * planes * 2 : ℕ) := by
      push_cast; linarith
    have hword : ∀ (x : ℤ) (b : ℕ), 0 ≤ x → x < (16 * wdwidth : ℕ) → b < planes →
        0 ≤ x / 16 * planes + b ∧ x / 16 * planes + b < (wdwidth * planes : ℕ) := by
      intro x b h₀ h₁ hb
      have hg : 0 ≤ x / 16 ∧ x / 16 + 1 ≤ wdwidth := by omega
      refine ⟨add_nonneg (mul_nonneg hg.1 (Nat.cast_nonneg _)) (Nat.cast_nonneg _), ?_⟩
      calc x / 16 * planes + (b : ℤ) < x / 16 * planes + planes :=
            Int.add_lt_add_left (by exact_mod_cast hb) _
        _ = (x / 16 + 1) * planes := by ring
        _ ≤ wdwidth * planes := mul_le_mul_of_nonneg_right hg.2 (Nat.cast_nonneg _)
        _ = (wdwidth * planes : ℕ) := (Nat.cast_mul _ _).symm
    have h₁ := hword x b hin.1 hin.2.1 hb
    have h₂ := hword x' b' hin'.1 hin'.2.1 hb'
    have hxy := row_inj (by norm_num) hrow h₁.1 h₁.2 h₂.1 h₂.2 hcell
    have hgroup : (b : ℤ) = b' ∧ x / 16 = x' / 16 :=
      row_inj one_pos (one_mul (planes : ℤ)).le (Nat.cast_nonneg b) (by exact_mod_cast hb)
        (Nat.cast_nonneg b')
        (by exact_mod_cast hb') (by rw [mul_one, mul_one]; exact hxy.1)
    exact ⟨by omega, hxy.2, by omega⟩

end Bitmap

end Lib
