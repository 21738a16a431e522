/-
  Bit planes and chunky pixels (`VdiDriver::chunkyToBitplane`,
  `HostScreen::bitplaneToChunky`).

  A group of 16 pixels is one word for each plane, the leftmost pixel in the
  highest bit.  Chunky, it is 16 bytes, one for each pixel.  The two functions
  are inverse to each other on the planes there are.

  `bitplaneToChunky` moves bits between four registers; what happens is said by
  where a bit comes from (`getLsbD_transpose`).
-/
import Aranym.Vdi.Mfdb
import Mathlib.Tactic.IntervalCases

namespace Aranym.Vdi

open Lib BitVec List

/-! ## Chunky to planes -/

/-- The words of a group, one for each plane. -/
abbrev Words := ℕ → U16

variable (data : ℕ → U8) (words : Words) (p : ℕ)

/-- A pixel is shifted into the words of all planes. -/
def shiftIn (bitplaneWords : Words) (l : ℕ) (p : ℕ) : U16 :=
  bitplaneWords p <<< 1 ||| ((data l >>> p) &&& 1).setWidth 16

/-- `chunkyToBitplane`.  The words are not cleared before. -/
def chunkyToBitplane (bitplaneWords : Words) : Words :=
  (range 16).foldl (shiftIn data) bitplaneWords

/-- The word of a plane. -/
def planeWord : U16 := ofBits (fun t => (data (15 - t)).getLsbD p) 16

theorem getLsbD_planeWord {t : ℕ} (ht : t < 16) :
    (planeWord data p).getLsbD t = (data (15 - t)).getLsbD p :=
  getLsbD_ofBits _ ht

theorem getLsbD_shiftIn (l p : ℕ) {t : ℕ} (ht : t < 16) :
    (shiftIn data words l p).getLsbD t = if t = 0 then (data l).getLsbD p
      else (words p).getLsbD (t - 1) := by
  simp only [shiftIn, getLsbD_or, getLsbD_shiftLeft, getLsbD_setWidth, getLsbD_and,
    getLsbD_ushiftRight, ht]
  cases t with
  | zero => simp
  | succ t => simp

theorem getLsbD_shiftIn_run (data : ℕ → U8) (words : Words) (p : ℕ) :
    ∀ (n t : ℕ), t < n → t < 16 →
      ((range n).foldl (shiftIn data) words p).getLsbD t = (data (n - 1 - t)).getLsbD p
  | 0, _, ht, _ => absurd ht (Nat.not_lt_zero _)
  | n + 1, t, ht, ht' => by
    rw [range_succ, foldl_append, foldl_cons, foldl_nil, getLsbD_shiftIn _ _ _ _ ht']
    cases t with
    | zero => simp
    | succ t =>
      rw [if_neg (Nat.succ_ne_zero t), Nat.add_sub_cancel,
        getLsbD_shiftIn_run data words p n t (by omega) (by omega),
        show n + 1 - 1 - (t + 1) = n - 1 - t by omega]

theorem chunkyToBitplane_eq : chunkyToBitplane data words p = planeWord data p := by
  refine eq_of_getLsbD_eq fun t ht => ?_
  rw [getLsbD_planeWord _ _ ht]
  exact getLsbD_shiftIn_run data words p 16 t ht ht

/-! ## Planes to chunky -/

/-- A word of the Atari as the host reads it. -/
def swapBE16 (w : U16) : U16 := w.extractLsb' 0 8 ++ w.extractLsb' 8 8

/-- Two words as the host reads them at once. -/
def hostLong (w w' : U16) : U32 := swapBE16 w' ++ swapBE16 w

/-- Bits under `high` of the second register go to the first, `k` lower, and those under `low` of
    the first to the second. -/
def exchangeBits (high low : U32) (k : ℕ) (x y : U32) : U32 × U32 :=
  (x &&& high ||| (y &&& high) >>> k, (x &&& low) <<< k ||| y &&& low)

/-- Every other bit. -/
def exchangeWords (x : U32) : U32 :=
  x &&& 0xaaaa5555 ||| (x &&& 0x0000aaaa) <<< 15 ||| (x &&& 0x55550000) >>> 15

/-- The registers `a`, `b`, `c` and `d` before the bytes are taken from them. -/
def transpose (a b c d : U32) : U32 × U32 × U32 × U32 :=
  let (a, c) := exchangeBits 0xf0f0f0f0 0x0f0f0f0f 4 a c
  let (b, d) := exchangeBits 0xf0f0f0f0 0x0f0f0f0f 4 b d
  let (a, b) := exchangeBits 0xcccccccc 0x33333333 2 a b
  let (c, d) := exchangeBits 0xcccccccc 0x33333333 2 c d
  (exchangeWords a, exchangeWords b, exchangeWords c, exchangeWords d)

/-- The registers as they are loaded. -/
def registers (bpp : ℕ) (words : Words) : U32 × U32 × U32 × U32 :=
  match bpp with
  | 8 => (hostLong (words 6) (words 7), hostLong (words 4) (words 5), hostLong (words 2) (words 3),
      hostLong (words 0) (words 1))
  | 4 => (0, 0, hostLong (words 2) (words 3), hostLong (words 0) (words 1))
  | 2 => (0, 0, 0, hostLong (words 0) (words 1))
  | _ => (0, 0, 0, (swapBE16 (words 0)).setWidth 32)

/-- `bitplaneToChunky` without scrolling, on a little endian host. -/
def bitplaneToChunky (bpp : ℕ) (l : ℕ) : U8 :=
  let (a, b, c, d) := registers bpp words
  let (a, b, c, d) := transpose a b c d
  match l with
  | 1 => a.setWidth 8
  | 9 => (a >>> 8).setWidth 8
  | 0 => (a >>> 16).setWidth 8
  | 8 => (a >>> 24).setWidth 8
  | 3 => b.setWidth 8
  | 11 => (b >>> 8).setWidth 8
  | 2 => (b >>> 16).setWidth 8
  | 10 => (b >>> 24).setWidth 8
  | 5 => c.setWidth 8
  | 13 => (c >>> 8).setWidth 8
  | 4 => (c >>> 16).setWidth 8
  | 12 => (c >>> 24).setWidth 8
  | 7 => d.setWidth 8
  | 15 => (d >>> 8).setWidth 8
  | 6 => (d >>> 16).setWidth 8
  | _ => (d >>> 24).setWidth 8

variable {i : ℕ}

/-- The bit comes from the register that one digit of its number says, and the digit becomes the
    number of its own. -/
theorem getLsbD_nibbles (x y : U32) (hi : i < 32) :
    (exchangeBits 0xf0f0f0f0 0x0f0f0f0f 4 x y).1.getLsbD i =
        (if i / 4 % 2 = 1 then x else y).getLsbD (i / 8 * 8 + 4 + i % 4) ∧
      (exchangeBits 0xf0f0f0f0 0x0f0f0f0f 4 x y).2.getLsbD i =
        (if i / 4 % 2 = 1 then x else y).getLsbD (i / 8 * 8 + i % 4) := by
  interval_cases i <;> simp [exchangeBits]

theorem getLsbD_pairs (x y : U32) (hi : i < 32) :
    (exchangeBits 0xcccccccc 0x33333333 2 x y).1.getLsbD i =
        (if i / 2 % 2 = 1 then x else y).getLsbD (i / 4 * 4 + 2 + i % 2) ∧
      (exchangeBits 0xcccccccc 0x33333333 2 x y).2.getLsbD i =
        (if i / 2 % 2 = 1 then x else y).getLsbD (i / 4 * 4 + i % 2) := by
  interval_cases i <;> simp [exchangeBits]

/-- `exchangeWords` exchanges the highest and the lowest digit of the number of a bit. -/
def exchangeEnds (i : ℕ) : ℕ := 16 * (i % 2) + (i % 16 - i % 2) + i / 16

theorem exchangeEnds_lt (hi : i < 32) : exchangeEnds i < 32 := by
  unfold exchangeEnds
  omega

theorem getLsbD_exchangeWords (x : U32) (hi : i < 32) :
    (exchangeWords x).getLsbD i = x.getLsbD (exchangeEnds i) := by
  interval_cases i <;> simp [exchangeWords, exchangeEnds]

/-- The registers by number. -/
def register (r : U32 × U32 × U32 × U32) : ℕ → U32
  | 0 => r.2.2.2
  | 1 => r.2.2.1
  | 2 => r.2.1
  | _ => r.1

/-- Where a bit of a register comes from: two digits of its number are exchanged with the number of
    the register. -/
theorem getLsbD_transpose (r : U32 × U32 × U32 × U32) {n : ℕ} (hn : n < 4) (hi : i < 32) :
    (register (transpose r.1 r.2.1 r.2.2.1 r.2.2.2) n).getLsbD i =
      (register r (exchangeEnds i % 8 / 2)).getLsbD
        (exchangeEnds i / 8 * 8 + 2 * n + exchangeEnds i % 2) := by
  have he := exchangeEnds_lt hi
  have hends : ∀ x : U32, (exchangeWords x).getLsbD i = x.getLsbD (exchangeEnds i) :=
    fun x => getLsbD_exchangeWords x hi
  generalize exchangeEnds i = e at he hends ⊢
  -- the bits between the two exchanges
  have hlt : e / 4 * 4 + e % 2 < 32 ∧ e / 4 * 4 + 2 + e % 2 < 32 := by omega
  have hdigit : (e / 4 * 4 + e % 2) / 4 % 2 = e / 4 % 2 ∧
    (e / 4 * 4 + 2 + e % 2) / 4 % 2 = e / 4 % 2 := by omega
  have hlow : (e / 4 * 4 + e % 2) / 8 * 8 = e / 8 * 8 ∧ (e / 4 * 4 + e % 2) % 4 = e % 2 := by omega
  have hhigh : (e / 4 * 4 + 2 + e % 2) / 8 * 8 = e / 8 * 8 ∧
    (e / 4 * 4 + 2 + e % 2) % 4 = 2 + e % 2 := by omega
  have hnumber : e % 8 / 2 = 2 * (e / 4 % 2) + e / 2 % 2 := by omega
  have hpair : e / 2 % 2 = 0 ∨ e / 2 % 2 = 1 := by omega
  have hnibble : e / 4 % 2 = 0 ∨ e / 4 % 2 = 1 := by omega
  interval_cases n <;> rcases hpair with hp | hp <;> rcases hnibble with hq | hq <;>
    simp only [register, transpose, hends, (getLsbD_pairs _ _ he).1, (getLsbD_pairs _ _ he).2,
      (getLsbD_nibbles _ _ hlt.1).1, (getLsbD_nibbles _ _ hlt.1).2, (getLsbD_nibbles _ _ hlt.2).1,
      (getLsbD_nibbles _ _ hlt.2).2, hdigit.1, hdigit.2, hlow, hhigh, hnumber, hp, hq,
      reduceIte, ← add_assoc, Nat.reduceMul, Nat.reduceAdd, Nat.add_zero, Nat.zero_ne_one]

theorem getLsbD_swapBE16 (w : U16) {s : ℕ} (hs : s < 16) :
    (swapBE16 w).getLsbD s = w.getLsbD ((s + 8) % 16) := by
  rw [swapBE16, getLsbD_append]
  by_cases h : s < 8
  · have h' : (s + 8) % 16 = 8 + s := by omega
    simp [h, h']
  · have h' : (s + 8) % 16 = s - 8 := by omega
    have h'' : s - 8 < 8 := by omega
    simp [h, h', h'']

variable {p : ℕ}

theorem getLsbD_registers (P : Planes) (words : Words) {s : ℕ} (hp : p < 8) (hs : s < 16) :
    (register (registers P.count words) (p / 2)).getLsbD (16 * (p % 2) + s) =
      (decide (p < P.count) && (swapBE16 (words p)).getLsbD s) := by
  have hlow : ∀ w w', (hostLong w w').getLsbD s = (swapBE16 w).getLsbD s := by
    intro w w'
    refine BitVec.getLsbD_append.trans ?_
    simp [hs]
  have hhigh : ∀ w w', (hostLong w w').getLsbD (16 + s) = (swapBE16 w').getLsbD s := by
    intro w w'
    refine BitVec.getLsbD_append.trans ?_
    simp
  have hone : ((swapBE16 (words 0)).setWidth 32).getLsbD s = (swapBE16 (words 0)).getLsbD s := by
    rw [getLsbD_setWidth, decide_eq_true (by omega), Bool.true_and]
  have hone' : ((swapBE16 (words 0)).setWidth 32).getLsbD (16 + s) = false := by
    rw [getLsbD_setWidth, getLsbD_of_ge _ _ (by omega), Bool.and_false]
  cases P <;> interval_cases p <;>
    simp only [registers, register, Planes.count, hlow, hhigh, hone, hone',
      ofNat_eq_ofNat, getLsbD_zero,
      Nat.reduceDiv, Nat.reduceMod, Nat.reduceMul, Nat.zero_add, Nat.reduceLT, decide_true,
      decide_false, Bool.true_and, Bool.false_and]

variable {l : ℕ}

theorem bitplaneToChunky_eq (words : Words) (bpp : ℕ) (hl : l < 16) : bitplaneToChunky words bpp l =
      (register (transpose (registers bpp words).1 (registers bpp words).2.1
        (registers bpp words).2.2.1
        (registers bpp words).2.2.2) (3 - l % 8 / 2) >>>
          (16 * (1 - l % 2) + 8 * (l / 8))).setWidth 8 := by
  interval_cases l <;> rfl

/-- Bit `p` of pixel `l` comes from plane `p`, at column `l`. -/
theorem getLsbD_bitplaneToChunky (P : Planes) (words : Words) (hl : l < 16) (hp : p < 8) :
    (bitplaneToChunky words P.count l).getLsbD p =
      (decide (p < P.count) && (words p).getLsbD (15 - l)) := by
  have hbit : exchangeEnds (16 * (1 - l % 2) + 8 * (l / 8) + p) =
      16 * (p % 2) + 8 * (l / 8) + (p - p % 2) + (1 - l % 2) := by
    unfold exchangeEnds
    omega
  have hregister : exchangeEnds (16 * (1 - l % 2) + 8 * (l / 8) + p) % 8 / 2 = p / 2 := by omega
  have hplace : exchangeEnds (16 * (1 - l % 2) + 8 * (l / 8) + p) / 8 * 8 + 2 * (3 - l % 8 / 2) +
      exchangeEnds (16 * (1 - l % 2) + 8 * (l / 8) + p) % 2 =
        16 * (p % 2) + (8 * (l / 8) + (7 - l % 8)) := by omega
  rw [bitplaneToChunky_eq _ _ hl, getLsbD_setWidth, getLsbD_ushiftRight,
    getLsbD_transpose _ (by omega) (by omega), hregister, hplace,
    getLsbD_registers P words hp (by omega),
    getLsbD_swapBE16 _ (by omega), show (8 * (l / 8) + (7 - l % 8) + 8) % 16 = 15 - l by omega,
    decide_eq_true hp, Bool.true_and]

theorem planeWord_bitplaneToChunky (P : Planes) (words : Words) (hp : p < P.count) :
    planeWord (bitplaneToChunky words P.count) p = words p := by
  refine eq_of_getLsbD_eq fun t ht => ?_
  have hp' : p < 8 := hp.trans_le P.count_le
  rw [getLsbD_planeWord _ _ ht, getLsbD_bitplaneToChunky P words (by omega) hp', decide_eq_true hp,
    Bool.true_and, show 15 - (15 - t) = t by omega]

/-! ## Scrolled planes -/

/-- The words `scrolled`: 16 pixels of two groups of `bpp` planes, from pixel `horizShift` on.  The
    code swaps the bytes of a word as the host reads it before and after the shift. -/
def scrolled (words : Words) (bpp horizShift : ℕ) (i : ℕ) : U16 :=
  let x : U32 := words i ++ words (i + bpp)
  ((x <<< horizShift) >>> 16).setWidth 16

/-- `bitplaneToChunky`. -/
def bitplaneToChunkyAt (words : Words) (bpp horizShift : ℕ) : ℕ → U8 :=
  bitplaneToChunky (if horizShift ≠ 0 then scrolled words bpp horizShift else words) bpp

theorem getLsbD_scrolled (words : Words) (bpp p : ℕ) {h : ℕ} (hh : h < 16) (hl : l < 16) :
    (scrolled words bpp h p).getLsbD (15 - l) = (words p ++ words (p + bpp)).getMsbD (h + l) := by
  have hplace : 16 + (15 - l) - h = 16 + 16 - 1 - (h + l) := by omega
  rw [scrolled, getLsbD_setWidth, getLsbD_ushiftRight, getLsbD_shiftLeft, hplace, BitVec.getMsbD,
    decide_eq_true (by omega : 15 - l < 16), decide_eq_true (by omega : 16 + (15 - l) < 32),
    decide_eq_false (by omega : ¬ 16 + (15 - l) < h), decide_eq_true (by omega : h + l < 16 + 16)]
  rfl

theorem getLsbD_append_left (w w' : U16) (hl : l < 16) :
    w.getLsbD (15 - l) = (w ++ w').getMsbD l := by
  rw [BitVec.getMsbD, getLsbD_append, if_neg (by omega), decide_eq_true (by omega : l < 16 + 16),
    Bool.true_and, show 16 + 16 - 1 - l - 16 = 15 - l by omega]

/-- **Planes to chunky.**  Pixel `i` has for each plane the bit `horizShift + i`, from the left, of
    the word of its group followed by the word of the next group. -/
theorem bitplaneToChunky_pixels (P : Planes) (words : Words) (h i : Fin 16) :
    (bitplaneToChunkyAt words P.count h i).toNat =
      ∑ p ∈ Finset.range P.count,
        2 ^ p * ((words p ++ words (p + P.count)).getMsbD (h + i)).toNat := by
  have hbit : ∀ p < 8, (bitplaneToChunkyAt words P.count h i).getLsbD p =
      (decide (p < P.count) && (words p ++ words (p + P.count)).getMsbD (h + i)) := by
    intro p hp
    rw [bitplaneToChunkyAt, getLsbD_bitplaneToChunky P _ i.isLt hp]
    split_ifs with h0
    · rw [getLsbD_scrolled words P.count p h.isLt i.isLt]
    · rw [not_not.1 h0, Nat.zero_add, getLsbD_append_left _ _ i.isLt]
  have hof : bitplaneToChunkyAt words P.count h i =
      ofBits (fun p => decide (p < P.count) &&
        (words p ++ words (p + P.count)).getMsbD (h + i)) 8 := by
    apply eq_of_getLsbD_eq
    intro p hp
    rw [hbit p hp, getLsbD_ofBits _ hp]
  rw [hof, toNat_ofBits, ← Finset.sum_subset (Finset.range_mono P.count_le)]
  · refine Finset.sum_congr rfl fun p hp => ?_
    rw [decide_eq_true (Finset.mem_range.1 hp), Bool.true_and]
  · intro p _ hp
    rw [Finset.mem_range] at hp
    simp [hp]

/-! ## Groups in memory -/

namespace Mfdb

variable {P : Planes} (M : Mfdb (.planes P))

/-- The offset of a group. -/
def groupOffset (g y : ℤ) : ℤ := g * P.count * 2 + y * M.pitch

/-- The words of a group, to be written from an offset on. -/
def wordDots (_ : Mfdb (.planes P)) (address : ℤ) (words : Words) : List (ℤ × U16) :=
  (range P.count).map fun (d : ℕ) => (uint32 (address + 2 * d), words d)

/-- Writes a group. -/
def writeWords (address : ℤ) (words : Words) (mem : ℤ → U16) : ℤ → U16 :=
  paint (fun v _ => v) (M.wordDots address words) mem

/-- The words from an offset on. -/
def readWords (_ : Mfdb (.planes P)) (address : ℤ) (mem : ℤ → U16) (d : ℕ) : U16 :=
  mem (uint32 (address + 2 * d))

/-- The group is there. -/
def HasGroup (g y : ℤ) : Prop := 0 ≤ g ∧ g < M.wdwidth ∧ 0 ≤ y ∧ y < M.height

variable {M} {g y g' y' : ℤ} {d d' : ℕ}

theorem uint32_groupOffset (h : M.HasGroup g y) (hd : d < P.count) :
    uint32 (M.groupOffset g y + 2 * d) = M.groupOffset g y + 2 * d := by
  obtain ⟨hg0, hg, hy0, hy⟩ := h
  have hpitch : (M.pitch : ℤ) = M.wdwidth * P.count * 2 := by
    unfold pitch
    rfl
  have hgroups : (g + 1) * P.count ≤ M.wdwidth * P.count :=
    mul_le_mul_of_nonneg_right (by omega) (Int.natCast_nonneg _)
  have hcolumn : 0 ≤ g * P.count := mul_nonneg hg0 (Int.natCast_nonneg _)
  have heq : M.groupOffset g y + 2 * d = y * M.pitch + (g * P.count * 2 + 2 * d) := by
    unfold groupOffset
    ring
  rw [heq]
  refine M.uint32_offset hy0 hy (by omega) ?_
  linarith

theorem cell_planes (x y : ℤ) (b : ℕ) : M.planar.cell x y b = M.groupOffset (x / 16) y + 2 * b := by
  show y * (M.wdwidth * P.count * 2 : ℕ) + (x / 16 * P.count + b) * 2 =
    x / 16 * P.count * 2 + y * (M.wdwidth * P.count * 2 : ℕ) + 2 * b
  ring

theorem pos_planes (x y : ℤ) (b : ℕ) : M.planar.pos x y b = (15 - x % 16).toNat := rfl

theorem bit_planes (mem : ℤ → U16) (x y : ℤ) (b : ℕ) :
    M.planar.bit mem x y b =
      (mem (M.groupOffset (x / 16) y + 2 * b)).getLsbD (15 - x % 16).toNat := by
  rw [← M.cell_planes]
  rfl

theorem HasGroup.inside (h : M.HasGroup g y) {x : ℤ} (hx : x / 16 = g) : M.planar.Inside x y := by
  obtain ⟨hg0, hg, hy0, hy⟩ := h
  refine ⟨by omega, ?_, hy0, hy⟩
  show x < (16 * M.wdwidth : ℕ)
  omega

theorem hasGroup_of_inside {x : ℤ} (h : M.planar.Inside x y) : M.HasGroup (x / 16) y := by
  have hx : x < (16 * M.wdwidth : ℕ) := h.2.1
  exact ⟨by have := h.1; omega, by omega, h.2.2.1, h.2.2.2⟩

theorem groupOffset_inj (h : M.HasGroup g y) (hd : d < P.count) (h' : M.HasGroup g' y')
    (hd' : d' < P.count) (heq : M.groupOffset g y + 2 * d = M.groupOffset g' y' + 2 * d') :
    g = g' ∧ y = y' ∧ d = d' := by
  have hg : 16 * g / 16 = g := by omega
  have hg' : 16 * g' / 16 = g' := by omega
  have hcell : M.planar.cell (16 * g) y d = M.planar.cell (16 * g') y' d' := by
    rw [cell_planes, cell_planes, hg, hg', heq]
  have hpos : M.planar.pos (16 * g) y d = M.planar.pos (16 * g') y' d' := by
    rw [pos_planes, pos_planes]
    omega
  obtain ⟨hx, hy, hd⟩ := M.planar.inj _ _ _ _ _ _ (h.inside hg) hd (h'.inside hg') hd' hcell hpos
  exact ⟨by omega, hy, hd⟩

theorem exists_pixel (h : M.HasGroup g y) {t : ℕ} (ht : t < 16) :
    ∃ x, M.planar.Inside x y ∧ ∀ d, M.planar.cell x y d = M.groupOffset g y + 2 * d ∧
    M.planar.pos x y d = t := by
  have hg : (16 * g + (15 - t)) / 16 = g := by omega
  refine ⟨16 * g + (15 - t), h.inside hg, fun d => ⟨?_, ?_⟩⟩
  · rw [cell_planes, hg]
  · rw [pos_planes]
    omega

/-! ## Reading and writing groups -/

theorem writeWords_own {address : ℤ} {words : Words} {mem : ℤ → U16}
    (h : ∀ d < P.count, words d = M.readWords address mem d) :
    M.writeWords address words mem = mem := by
  funext a
  by_cases ha : a ∈ (M.wordDots address words).map Prod.fst
  · refine paint_over_apply ha fun e he heq => ?_
    obtain ⟨d, hd, rfl⟩ := mem_map.1 he
    rw [← heq]
    exact h d (mem_range.1 hd)
  · exact paint_apply_of_not_mem ha

theorem writeWords_apply (h : M.HasGroup g y) (words : Words) (mem : ℤ → U16) (hd : d < P.count) :
    M.writeWords (M.groupOffset g y) words mem (M.groupOffset g y + 2 * d) = words d := by
  refine paint_over_apply ?_ fun e he heq => ?_
  · refine mem_map.2 ⟨_, mem_map.2 ⟨d, mem_range.2 hd, rfl⟩, ?_⟩
    exact uint32_groupOffset h hd
  · obtain ⟨d', hd', rfl⟩ := mem_map.1 he
    rw [uint32_groupOffset h (mem_range.1 hd')] at heq
    rw [show d' = d by omega]

theorem writeWords_of_ne (h : M.HasGroup g y) (words : Words) (mem : ℤ → U16) {a : ℤ}
    (ha : ∀ d < P.count, M.groupOffset g y + 2 * d ≠ a) :
    M.writeWords (M.groupOffset g y) words mem a = mem a := by
  refine paint_apply_of_not_mem fun hmem => ?_
  obtain ⟨e, he, heq⟩ := mem_map.1 hmem
  obtain ⟨d, hd, rfl⟩ := mem_map.1 he
  have hd' := mem_range.1 hd
  exact ha d hd' ((uint32_groupOffset h hd').symm.trans heq)

end Mfdb

end Aranym.Vdi
