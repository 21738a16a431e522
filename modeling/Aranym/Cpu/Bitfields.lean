/-
  Bit fields in memory (`newcpu.cpp`).

  A field of `width` bits begins at bit `offset & 7` of the byte at an address and
  reaches over one to five bytes, which are read and written in one or two parts.
-/
import Aranym.Cpu.Memory

namespace Aranym.Bitfield

open Lib Memory BitVec

/-! ## The model -/

/-- The first bit of a field. -/
def fieldOffset (offset : U32) : ℕ := (offset &&& 7).toNat

/-- `get_bitfield`: the result and `bdata`. -/
def getBitfield (mem : Bytes) (src : U32) (bdata : U32 × U32) (offset : U32) (width : ℕ) :
    U32 × U32 × U32 :=
  let offset := fieldOffset offset
  let mask := (0xffffffff : U32) <<< (32 - width)
  match (offset + width + 7) / 8 with
  | 1 =>
    let tmp := (mem src).setWidth 32
    (tmp <<< (24 + offset), tmp &&& ~~~(mask >>> (24 + offset)), bdata.2)
  | 2 =>
    let tmp := (getMemWord mem src).setWidth 32
    (tmp <<< (16 + offset), tmp &&& ~~~(mask >>> (16 + offset)), bdata.2)
  | 3 =>
    let tmp := (getMemWord mem src).setWidth 32
    let tmp' := (mem (src + 2)).setWidth 32
    (tmp <<< (16 + offset) ||| tmp' <<< (8 + offset),
      tmp &&& ~~~(mask >>> (16 + offset)), tmp' &&& ~~~(mask >>> (8 + offset)))
  | 4 =>
    let tmp := getMemLong mem src
    (tmp <<< offset, tmp &&& ~~~(mask >>> offset), bdata.2)
  | 5 =>
    let tmp := getMemLong mem src
    let tmp' := (mem (src + 4)).setWidth 32
    (tmp <<< offset ||| tmp' >>> (8 - offset),
      tmp &&& ~~~(mask >>> offset), tmp' &&& ~~~(mask <<< (8 - offset)))
  | _ => (0, bdata)

/-- Writes a field. -/
def putBitfield (mem : Bytes) (dst : U32) (bdata : U32 × U32) (val offset : U32)
    (width : ℕ) : Bytes :=
  let offset := fieldOffset offset + width
  match (offset + 7) / 8 with
  | 1 => Function.update mem dst ((bdata.1 ||| val <<< (8 - offset)).setWidth 8)
  | 2 => putMemWord mem dst ((bdata.1 ||| val <<< (16 - offset)).setWidth 16)
  | 3 =>
    Function.update (putMemWord mem dst ((bdata.1 ||| val >>> (offset - 16)).setWidth 16)) (dst + 2)
      ((bdata.2 ||| val <<< (24 - offset)).setWidth 8)
  | 4 => putMemLong mem dst (bdata.1 ||| val <<< (32 - offset))
  | 5 =>
    Function.update (putMemLong mem dst (bdata.1 ||| val >>> (offset - 32))) (dst + 4)
      ((bdata.2 ||| val <<< (40 - offset)).setWidth 8)
  | _ => mem

variable {mem : Bytes} {src offset : U32} {bdata : U32 × U32} {width k i o : ℕ} {val : U32}

theorem fieldOffset_lt (offset : U32) : fieldOffset offset < 8 := by
  rw [fieldOffset, toNat_and_low (n := 3) offset rfl]
  exact Nat.mod_lt _ (by decide)

theorem field_cases (hw : 1 ≤ width ∧ width ≤ 32) (ho : o < 8) :
    ((o + width + 7) / 8 = 1 ∧ o + width ≤ 8) ∨
    ((o + width + 7) / 8 = 2 ∧ 8 < o + width ∧ o + width ≤ 16) ∨
    ((o + width + 7) / 8 = 3 ∧ 16 < o + width ∧ o + width ≤ 24) ∨
    ((o + width + 7) / 8 = 4 ∧ 24 < o + width ∧ o + width ≤ 32) ∨
    ((o + width + 7) / 8 = 5 ∧ 32 < o + width ∧ o + width ≤ 40) := by
  omega

/-! ## Parts -/

section
variable (mem : Bytes) (src : U32)

/-- `tmp` holds the `n` bits of memory from bit `b` on. -/
def Part (b n : ℕ) (tmp : U32) : Prop :=
  ∀ i, tmp.getLsbD i = (decide (i < n) && memBit mem src (b + (n - 1 - i)))

theorem part_byte (m : ℕ) :
    Part mem src (8 * m) 8 ((mem (src + BitVec.ofNat 32 m)).setWidth 32) := by
  intro i
  rw [getLsbD_setWidth]
  by_cases h : i < 8
  · rw [getLsbD_byte mem src m h, decide_eq_true h, decide_eq_true (by omega)]
  · rw [getLsbD_of_ge _ _ (by omega), decide_eq_false h, Bool.and_false, Bool.false_and]

theorem part_first : Part mem src 0 8 ((mem src).setWidth 32) := by
  have hz : src + BitVec.ofNat 32 0 = src := BitVec.add_zero src
  have h := part_byte mem src 0
  rwa [hz] at h

theorem part_word : Part mem src 0 16 ((getMemWord mem src).setWidth 32) := by
  intro i
  rw [getLsbD_setWidth, Nat.zero_add]
  by_cases h : i < 16
  · rw [getLsbD_getMemWord h, decide_eq_true h, decide_eq_true (by omega)]
  · rw [getLsbD_of_ge _ _ (by omega), decide_eq_false h, Bool.and_false, Bool.false_and]

theorem part_long : Part mem src 0 32 (getMemLong mem src) := by
  intro i
  rw [Nat.zero_add]
  by_cases h : i < 32
  · rw [getLsbD_getMemLong h, decide_eq_true h, Bool.true_and]
  · rw [getLsbD_of_ge _ _ (by omega), decide_eq_false h, Bool.false_and]

end

variable {b n s t j : ℕ} {tmp M V : U32}

/-! ## Reading -/

theorem getLsbD_left (hp : Part mem src b n tmp) (hs : s + n + b = 32 + o) (hj : j < 32) :
    (tmp <<< s).getLsbD (31 - j) = (decide (b ≤ o + j ∧ o + j < b + n) &&
      memBit mem src (o + j)) := by
  rw [getLsbD_shiftLeft, hp, decide_eq_true (show 31 - j < 32 by omega), Bool.true_and]
  by_cases hk : b ≤ o + j ∧ o + j < b + n
  · rw [decide_eq_true hk, decide_eq_false (show ¬ 31 - j < s by omega),
      decide_eq_true (show 31 - j - s < n by omega),
      show b + (n - 1 - (31 - j - s)) = o + j by omega]
    rfl
  · rw [decide_eq_false hk]
    by_cases hlt : 31 - j < s
    · rw [decide_eq_true hlt]
      rfl
    · rw [decide_eq_false (show ¬ 31 - j - s < n by omega), Bool.false_and, Bool.and_false]
      rfl

theorem getLsbD_right (hp : Part mem src b n tmp) (hs : b + n = s + 32 + o) (hj : j < 32) :
    (tmp >>> s).getLsbD (31 - j) = (decide (b ≤ o + j) && memBit mem src (o + j)) := by
  rw [getLsbD_ushiftRight, hp]
  by_cases hk : b ≤ o + j
  · rw [decide_eq_true hk, decide_eq_true (show s + (31 - j) < n by omega),
      show b + (n - 1 - (s + (31 - j))) = o + j by omega]
  · rw [decide_eq_false hk, decide_eq_false (show ¬ s + (31 - j) < n by omega)]
    rfl

/-- Two parts that meet at bit `m`. -/
theorem or_parts {m : ℕ} {p : Prop} [Decidable p] (hp : p ↔ ¬ i < m) (x : Bool) :
    (decide (0 ≤ i ∧ i < 0 + m) && x || decide p && x) = x := by
  by_cases hi : i < m <;> simp [hp, hi]

/-- Bit `j` of the field is bit `j` of the string that starts at its offset. -/
theorem getBitfield_spec (hw : 1 ≤ width ∧ width ≤ 32) (hj : j < width) :
    (getBitfield mem src bdata offset width).1.getMsbD j =
      memBit mem src (fieldOffset offset + j) := by
  have hj32 : j < 32 := by omega
  have hmsb : ∀ x : U32, x.getMsbD j = x.getLsbD (31 - j) := by
    intro x
    rw [BitVec.getMsbD, decide_eq_true hj32, Bool.true_and]
  unfold getBitfield
  have ho := fieldOffset_lt offset
  generalize fieldOffset offset = o at ho ⊢
  rcases field_cases hw ho with ⟨hc, h⟩ | ⟨hc, -, h⟩ | ⟨hc, h', h⟩ | ⟨hc, -, h⟩ | ⟨hc, h', h⟩ <;>
    simp only [hc, hmsb]
  · rw [getLsbD_left (o := o) (part_first mem src) (by omega) hj32, decide_eq_true (by omega),
      Bool.true_and]
  · rw [getLsbD_left (o := o) (part_word mem src) (by omega) hj32, decide_eq_true (by omega),
      Bool.true_and]
  · rw [getLsbD_or, getLsbD_left (o := o) (part_word mem src) (by omega) hj32]
    have hbyte := getLsbD_left (s := 8 + o) (o := o) (part_byte mem src 2) (by omega) hj32
    exact (congrArg (_ || ·) hbyte).trans (or_parts (by omega) _)
  · rw [getLsbD_left (o := o) (part_long mem src) (by omega) hj32, decide_eq_true (by omega),
      Bool.true_and]
  · rw [getLsbD_or, getLsbD_left (o := o) (part_long mem src) (by omega) hj32]
    have hbyte := getLsbD_right (s := 8 - o) (o := o) (part_byte mem src 4) (by omega) hj32
    exact (congrArg (_ || ·) hbyte).trans (or_parts (by omega) _)

/-! ## Writing -/

/-- Bit `k` after `val` was written to the field. -/
def newBit (mem : Bytes) (src : U32) (o width : ℕ) (val : U32) (k : ℕ) : Bool :=
  if o ≤ k ∧ k < o + width then val.getLsbD (o + width - 1 - k) else memBit mem src k

theorem getLsbD_mask (width i : ℕ) :
    ((0xffffffff : U32) <<< (32 - width)).getLsbD i = decide (32 - width ≤ i ∧ i < 32) := by
  have hones : (0xffffffff : U32) = BitVec.allOnes 32 := by decide
  rw [hones, getLsbD_shiftLeft, getLsbD_allOnes]
  by_cases h : 32 - width ≤ i ∧ i < 32
  · rw [decide_eq_true h, decide_eq_true h.2, decide_eq_false (by omega), decide_eq_true (by omega)]
    rfl
  · rw [decide_eq_false h]
    by_cases hi : i < 32
    · rw [decide_eq_true (show i < 32 - width by omega), Bool.not_true, Bool.and_false,
        Bool.false_and]
    · rw [decide_eq_false hi, Bool.false_and, Bool.false_and]

/-- The mask covers the field in a part. -/
def Masks (b n o width : ℕ) (M : U32) : Prop :=
  ∀ i < n, M.getLsbD i = decide (o ≤ b + (n - 1 - i) ∧ b + (n - 1 - i) < o + width)

theorem masks_right (hw : width ≤ 32) (hs : s + n + b = 32 + o) :
    Masks b n o width ((0xffffffff : U32) <<< (32 - width) >>> s) := by
  intro i hi
  rw [getLsbD_ushiftRight, getLsbD_mask]
  exact decide_eq_decide.2 (by omega)

theorem masks_left (hw : width ≤ 32) (hs : b + n = s + 32 + o) (hn : n ≤ 32) :
    Masks b n o width ((0xffffffff : U32) <<< (32 - width) <<< s) := by
  intro i hi
  rw [getLsbD_shiftLeft, getLsbD_mask, decide_eq_true (show i < 32 by omega),
    Bool.true_and, ← decide_not, ← Bool.decide_and]
  exact decide_eq_decide.2 (by omega)

/-- The value is in its place in a part. -/
def Places (b n o width : ℕ) (val V : U32) : Prop :=
  ∀ i < n, V.getLsbD i = (decide (b + (n - 1 - i) < o + width) &&
    val.getLsbD (o + width - 1 - (b + (n - 1 - i))))

theorem places_left (hs : s + (o + width) = b + n) (hn : n ≤ 32) :
    Places b n o width val (val <<< s) := by
  intro i hi
  rw [getLsbD_shiftLeft, decide_eq_true (show i < 32 by omega), Bool.true_and, ← decide_not]
  by_cases h : i < s
  · rw [decide_eq_false (not_not.2 h),
      decide_eq_false (show ¬ b + (n - 1 - i) < o + width by omega), Bool.false_and, Bool.false_and]
  · rw [decide_eq_true h, decide_eq_true (show b + (n - 1 - i) < o + width by omega),
      show i - s = o + width - 1 - (b + (n - 1 - i)) by omega]

theorem places_right (hs : s + b + n = o + width) : Places b n o width val (val >>> s) := by
  intro i hi
  rw [getLsbD_ushiftRight, decide_eq_true (show b + (n - 1 - i) < o + width by omega),
    Bool.true_and, show s + i = o + width - 1 - (b + (n - 1 - i)) by omega]

theorem getLsbD_stored (hp : Part mem src b n tmp) (hM : Masks b n o width M)
    (hV : Places b n o width val V)
    (hval : Fits width val) (hn : n ≤ 32) (hb : b ≤ k) (hk : k < b + n) :
    (tmp &&& ~~~M ||| V).getLsbD (b + n - 1 - k) = newBit mem src o width val k := by
  have hi : b + n - 1 - k < n := by omega
  have hpos : b + (n - 1 - (b + n - 1 - k)) = k := by omega
  rw [getLsbD_or, getLsbD_and, getLsbD_not, hp, hM _ hi, hV _ hi, hpos, decide_eq_true hi,
    decide_eq_true (show b + n - 1 - k < 32 by omega), Bool.true_and, Bool.true_and, newBit]
  by_cases hf : o ≤ k ∧ k < o + width
  · rw [if_pos hf, decide_eq_true hf, decide_eq_true hf.2]
    simp
  · rw [if_neg hf, decide_eq_false hf]
    by_cases hlt : k < o + width
    · -- the bits of the value above the field are clear
      rw [getLsbD_of_fits hval (show width ≤ o + width - 1 - k by omega)]
      simp
    · rw [decide_eq_false hlt]
      simp

/-- **Writing a field**: the bits of the five bytes. -/
theorem memBit_putBitfield (hw : 1 ≤ width ∧ width ≤ 32) (hval : Fits width val) (hk : k < 40) :
    memBit (putBitfield mem src (getBitfield mem src bdata offset width).2 val offset width) src k =
      newBit mem src (fieldOffset offset) width val k := by
  unfold putBitfield getBitfield
  have ho := fieldOffset_lt offset
  generalize fieldOffset offset = o at ho ⊢
  have hk32 : k < 2 ^ 32 := by omega
  -- behind the last part there is no bit of the field
  have hrest : o + width ≤ k → memBit mem src k = newBit mem src o width val k := fun h => by
    rw [newBit, if_neg (by omega)]
  rcases field_cases hw ho with ⟨hc, h⟩ | ⟨hc, -, h⟩ | ⟨hc, h', h⟩ | ⟨hc, -, h⟩ | ⟨hc, h', h⟩ <;>
    simp only [hc]
  · rw [memBit_update_first hk32]
    split
    next hlt =>
      rw [getLsbD_last _ (by omega)]
      exact getLsbD_stored (b := 0) (part_first mem src) (masks_right hw.2 (by omega))
        (places_left (by omega) (by decide))
        hval (by decide) (by omega) (by omega)
    next hlt => exact hrest (by omega)
  · rw [memBit_putMemWord hk32]
    split
    next hlt =>
      rw [getLsbD_setWidth, decide_eq_true (by omega), Bool.true_and]
      exact getLsbD_stored (b := 0) (part_word mem src) (masks_right hw.2 (by omega))
        (places_left (by omega) (by decide))
        hval (by decide) (by omega) (by omega)
    next hlt => exact hrest (by omega)
  · refine (memBit_update (n := 2) (by decide) hk32 _).trans ?_
    split
    next heq =>
      rw [getLsbD_last _ (by omega), show 7 - k % 8 = 16 + 8 - 1 - k by omega]
      exact getLsbD_stored (b := 16) (part_byte mem src 2) (masks_right hw.2 (by omega))
        (places_left (by omega) (by decide)) hval (by decide) (by omega) (by omega)
    next hne =>
      rw [memBit_putMemWord hk32]
      split
      next hlt =>
        rw [getLsbD_setWidth, decide_eq_true (by omega), Bool.true_and]
        exact getLsbD_stored (b := 0) (part_word mem src) (masks_right hw.2 (by omega))
          (places_right (by omega))
          hval (by decide) (by omega) (by omega)
      next hlt => exact hrest (by omega)
  · rw [memBit_putMemLong hk32]
    split
    next hlt =>
      exact getLsbD_stored (b := 0) (part_long mem src) (masks_right hw.2 (by omega))
        (places_left (by omega) (by decide))
        hval (by decide) (by omega) (by omega)
    next hlt => exact hrest (by omega)
  · refine (memBit_update (n := 4) (by decide) hk32 _).trans ?_
    split
    next heq =>
      rw [getLsbD_last _ (by omega), show 7 - k % 8 = 32 + 8 - 1 - k by omega]
      exact getLsbD_stored (b := 32) (part_byte mem src 4) (masks_left hw.2 (by omega) (by decide))
        (places_left (by omega) (by decide)) hval (by decide) (by omega) (by omega)
    next hne =>
      rw [memBit_putMemLong hk32]
      split
      next hlt =>
        exact getLsbD_stored (b := 0) (part_long mem src) (masks_right hw.2 (by omega))
          (places_right (by omega))
          hval (by decide) (by omega) (by omega)
      next hlt => exact hrest (by omega)

theorem putBitfield_outside {dst x : U32} (h : Outside dst 5 x) :
    putBitfield mem dst bdata val offset width x = mem x := by
  unfold putBitfield
  generalize (fieldOffset offset + width + 7) / 8 = n
  rcases n with _ | _ | _ | _ | _ | _ | n
  · rfl
  · exact Function.update_of_ne h.ne_first _ _
  · exact putMemWord_outside (h.mono (by decide)) _
  · exact (Function.update_of_ne (h 2 (by decide)) _ _).trans
      (putMemWord_outside (h.mono (by decide)) _)
  · exact putMemLong_outside (h.mono (by decide)) _
  · exact (Function.update_of_ne (h 4 (by decide)) _ _).trans
      (putMemLong_outside (h.mono (by decide)) _)
  · rfl

theorem newBit_self (hw : 1 ≤ width ∧ width ≤ 32) (k : ℕ) :
    newBit mem src (fieldOffset offset) width
      ((getBitfield mem src bdata offset width).1 >>> (32 - width)) k =
      memBit mem src k := by
  unfold newBit
  split
  next hf =>
    have hj : k - fieldOffset offset < width := by omega
    have hspec : (getBitfield mem src bdata offset width).1.getMsbD (k - fieldOffset offset) = _ :=
      getBitfield_spec hw hj
    rw [BitVec.getMsbD, decide_eq_true (by omega), Bool.true_and, Nat.add_sub_cancel' hf.1] at hspec
    rw [getLsbD_ushiftRight, ← hspec]
    exact congrArg (BitVec.getLsbD _) (by omega)
  next => rfl

/-- **Bit fields.**  `get_bitfield` returns the field in its most significant bits; `put_bitfield`
    with the saved `bdata` writes any value to the bits of the field and changes no other bit;
    writing what was read changes nothing. -/
theorem bitfields (mem : Bytes) (src : U32) (bdata : U32 × U32) (offset : U32) (width : ℕ)
    (hw : 1 ≤ width ∧ width ≤ 32) :
    let o := fieldOffset offset
    let r := getBitfield mem src bdata offset width
    (∀ j < width, r.1.getMsbD j = memBit mem src (o + j)) ∧
    (∀ val : U32, val.toNat < 2 ^ width →
      (∀ k < 40, memBit (putBitfield mem src r.2 val offset width) src k =
        if o ≤ k ∧ k < o + width then val.getLsbD (o + width - 1 - k) else memBit mem src k) ∧
      ∀ x, Outside src 5 x → putBitfield mem src r.2 val offset width x = mem x) ∧
    putBitfield mem src r.2 (r.1 >>> (32 - width)) offset width = mem := by
  intro o r
  refine ⟨fun j hj => getBitfield_spec hw hj, fun val hval => ⟨fun k hk => ?_, fun x hx => ?_⟩, ?_⟩
  · exact memBit_putBitfield hw hval hk
  · exact putBitfield_outside hx
  · refine bytes_ext (n := 5) (fun k hk => ?_) fun x hx => putBitfield_outside hx
    have hfits : Fits width (r.1 >>> (32 - width)) := by
      refine fits_of_getLsbD fun i hi => ?_
      rw [getLsbD_ushiftRight]
      exact getLsbD_of_ge _ _ (by omega)
    rw [memBit_putBitfield hw hfits hk]
    exact newBit_self hw k

/-- A field of 12 bits in the bytes 0x10, 0x11 and 0x12. -/
theorem bitfields_twelve :
    let mem : Bytes := fun x => x.setWidth 8
    let r := getBitfield mem 0x10 (0, 0) 5 12
    r.1 >>> 20 = 0x022 ∧ putBitfield mem 0x10 r.2 (r.1 >>> 20) 5 12 = mem := by
  intro mem r
  exact ⟨by decide, (bitfields mem 0x10 (0, 0) 5 12 (by decide)).2.2⟩

end Aranym.Bitfield
