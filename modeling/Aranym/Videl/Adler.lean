/-
  The checksum of `adler32.c`, by which the Videl sees that a block changed.

  Both sums are accumulated in 32 bits and reduced once at the end: folding
  the high half with 15, which is `65536 - MOD_ADLER`, keeps the residue.
-/
import Aranym.Lib.Words
import Mathlib.Algebra.Order.BigOperators.Group.Finset

namespace Aranym.Videl

open List

/-- `a += *base_line++; b += a`. -/
def adlerByte (s : U32 × U32) (v : U8) : U32 × U32 :=
  let a := s.1 + v.setWidth 32
  (a, s.2 + a)

/-- `MOD_ADLER` is 65536 - 15. -/
def foldHigh (a : U32) : U32 := (a &&& 0xffff) + (a >>> 16) * 15

/-- Below `MOD_ADLER`. -/
def subtractOnce (a : U32) : U32 := if a ≥ 65521 then a - 65521 else a

section
variable (mem : ℤ → U8) (base : ℤ) (rows lines : ℕ) (pitch : ℤ)

/-- The checksum of a block. -/
def calcAdler : U32 :=
  let (a, b) := (range lines).foldl (fun s (y : ℕ) =>
    (range rows).foldl (fun s (x : ℕ) => adlerByte s (mem (base + y * pitch + x))) s) (1, 0)
  let a := subtractOnce (foldHigh a)
  let b := subtractOnce (foldHigh (foldHigh b))
  b <<< 16 ||| a

/-- The bytes of the block, line after line. -/
def blockBytes : List U8 :=
  (range lines).flatMap fun (y : ℕ) => (range rows).map fun (x : ℕ) => mem (base + y * pitch + x)

end

section
variable (bs : List U8) (v : U8)

/-- One and the sum of the bytes. -/
def sumA : ℕ := 1 + (bs.map BitVec.toNat).sum

/-- The values of `a` after each byte, added up. -/
def sumB : ℕ := ∑ i ∈ Finset.range bs.length, sumA (bs.take (i + 1))

theorem sumA_append : sumA (bs ++ [v]) = sumA bs + v.toNat := by simp [sumA, Nat.add_assoc]

theorem sumB_append : sumB (bs ++ [v]) = sumB bs + sumA (bs ++ [v]) := by
  simp only [sumB, length_append, length_singleton, Finset.sum_range_succ]
  rw [take_of_length_le (by simp)]
  congr 1
  refine Finset.sum_congr rfl fun i hi => ?_
  rw [take_append_of_le_length (Finset.mem_range.1 hi)]

theorem sumA_le : sumA bs ≤ 1 + 255 * bs.length := by
  induction bs using reverseRecOn with
  | nil => simp [sumA]
  | append_singleton bs v ih =>
    rw [sumA_append, length_append, length_singleton]
    omega

theorem sumB_le : sumB bs ≤ bs.length * (1 + 255 * bs.length) := by
  have h : ∀ i ∈ Finset.range bs.length, sumA (bs.take (i + 1)) ≤ 1 + 255 * bs.length := fun i _ =>
    (sumA_le _).trans (by rw [length_take]; omega)
  simpa [sumB] using Finset.sum_le_card_nsmul _ _ _ h

theorem foldl_adlerByte :
    bs.foldl adlerByte (1, 0) = (.ofNat 32 (sumA bs), .ofNat 32 (sumB bs)) := by
  induction bs using reverseRecOn with
  | nil => rfl
  | append_singleton bs v ih =>
    have hv : v.setWidth 32 = .ofNat 32 v.toNat := by simp
    simp only [foldl_append, ih, foldl_cons, foldl_nil, adlerByte, hv,
      ← BitVec.ofNat_add, sumB_append, sumA_append]

end

theorem foldHigh_toNat (a : U32) : (foldHigh a).toNat = a.toNat % 65536 + a.toNat / 65536 * 15 := by
  have h : a.toNat &&& 65535 = a.toNat % 65536 := Nat.and_two_pow_sub_one_eq_mod a.toNat 16
  simp [foldHigh, h, Nat.shiftRight_eq_div_pow]
  omega

theorem subtractOnce_toNat {a : U32} (h : a.toNat < 2 * 65521) :
    (subtractOnce a).toNat = a.toNat % 65521 := by
  unfold subtractOnce
  split_ifs with hle <;> simp [BitVec.le_def] at hle ⊢ <;> omega

/-- On blocks of up to 512 bytes the sums, which are reduced only at the end, are those of
    Adler-32. -/
theorem calc_adler_eq (mem : ℤ → U8) (base : ℤ) (rows lines : ℕ) (pitch : ℤ)
    (hsize : rows * lines ≤ 512) : (calcAdler mem base rows lines pitch).toNat =
      sumB (blockBytes mem base rows lines pitch) % 65521 * 65536 +
        sumA (blockBytes mem base rows lines pitch) % 65521 := by
  have hlen : (blockBytes mem base rows lines pitch).length ≤ 512 := by
    simpa [blockBytes, Nat.mul_comm] using hsize
  have hloop := foldl_adlerByte (blockBytes mem base rows lines pitch)
  rw [blockBytes, foldl_flatMap] at hloop
  simp only [foldl_map] at hloop
  rw [calcAdler, hloop, ← blockBytes]
  generalize blockBytes mem base rows lines pitch = bs at *
  have ha := sumA_le bs
  have hb := (sumB_le bs).trans
    (Nat.mul_le_mul hlen (Nat.add_le_add_left (Nat.mul_le_mul_left _ hlen) _))
  have hA : (subtractOnce (foldHigh (.ofNat 32 (sumA bs)))).toNat = sumA bs % 65521 := by
    rw [subtractOnce_toNat] <;> rw [foldHigh_toNat, BitVec.toNat_ofNat] <;> omega
  have hB : (subtractOnce (foldHigh (foldHigh (.ofNat 32 (sumB bs))))).toNat = sumB bs % 65521 := by
    rw [subtractOnce_toNat] <;> rw [foldHigh_toNat, foldHigh_toNat, BitVec.toNat_ofNat] <;> omega
  rw [BitVec.toNat_or, BitVec.toNat_shiftLeft, hA, hB, Nat.shiftLeft_eq,
    Nat.mod_eq_of_lt (by omega),
    ← Nat.shiftLeft_eq, ← Nat.shiftLeft_add_eq_or_of_lt (by omega), Nat.shiftLeft_eq]

theorem calc_adler_eq_block :
    (calcAdler (fun i => .ofInt 8 i) 0 2 2 16).toNat = 56 * 65536 + 35 := by
  rw [calc_adler_eq _ _ _ _ _ (by decide)]
  decide

end Aranym.Videl
