/-
  Big-endian words in memory (`sysdeps.h`).

  Memory is a function from addresses to bytes.  Its bits are numbered from the most
  significant bit of the byte at an address on: `memBit mem p k`.
-/
import Aranym.Lib.Words

namespace Aranym.Memory

open BitVec Function

/-- The guest's memory. -/
abbrev Bytes := U32 → U8

variable (mem : Bytes) (p : U32)

/-- Reads a word. -/
def getMemWord : U16 := mem p ++ mem (p + 1)

/-- Reads a longword. -/
def getMemLong : U32 :=
  mem p ++ mem (p + 1) ++ mem (p + 2) ++ mem (p + 3)

/-- Writes a word. -/
def putMemWord (w : U16) : Bytes :=
  Function.update (Function.update mem p ((w >>> 8).setWidth 8)) (p + 1) (w.setWidth 8)

/-- Writes a longword. -/
def putMemLong (p l : U32) : Bytes :=
  Function.update (Function.update (Function.update (Function.update mem p ((l >>> 24).setWidth 8))
    (p + 1) ((l >>> 16).setWidth 8)) (p + 2) ((l >>> 8).setWidth 8)) (p + 3) (l.setWidth 8)

/-! ## Bits -/

/-- Bit `k` from the address `p` on. -/
def memBit (k : ℕ) : Bool := (mem (p + BitVec.ofNat 32 (k / 8))).getLsbD (7 - k % 8)

variable {mem : Bytes} {p : U32} {i k n : ℕ}

theorem getLsbD_byte (mem : Bytes) (p : U32) (n : ℕ) (h : i < 8) :
    (mem (p + BitVec.ofNat 32 n)).getLsbD i = memBit mem p (8 * n + (7 - i)) := by
  rw [memBit, show (8 * n + (7 - i)) / 8 = n by omega, show 7 - (8 * n + (7 - i)) % 8 = i by omega]

theorem getLsbD_first (mem : Bytes) (p : U32) (h : i < 8) :
    (mem p).getLsbD i = memBit mem p (7 - i) := by
  have hz : p + BitVec.ofNat 32 0 = p := BitVec.add_zero p
  have hb := getLsbD_byte mem p 0 h
  rwa [hz, Nat.mul_zero, Nat.zero_add] at hb

theorem getLsbD_getMemWord (h : i < 16) : (getMemWord mem p).getLsbD i = memBit mem p (15 - i) := by
  rw [getMemWord, getLsbD_append]
  split
  next hi =>
    refine (getLsbD_byte mem p 1 hi).trans (congrArg (memBit mem p) ?_)
    omega
  next hi =>
    refine (getLsbD_first mem p (by omega)).trans (congrArg (memBit mem p) ?_)
    omega

theorem getLsbD_getMemLong (h : i < 32) : (getMemLong mem p).getLsbD i = memBit mem p (31 - i) := by
  rw [getMemLong, getLsbD_append, getLsbD_append, getLsbD_append]
  split
  next hi =>
    refine (getLsbD_byte mem p 3 hi).trans (congrArg (memBit mem p) ?_)
    omega
  split
  next hi =>
    refine (getLsbD_byte mem p 2 hi).trans (congrArg (memBit mem p) ?_)
    omega
  split
  next hi =>
    refine (getLsbD_byte mem p 1 hi).trans (congrArg (memBit mem p) ?_)
    omega
  next hi =>
    refine (getLsbD_first mem p (by omega)).trans (congrArg (memBit mem p) ?_)
    omega

theorem memBit_update (hn : n < 2 ^ 32) (hk : k < 2 ^ 32) (v : U8) :
    memBit (Function.update mem (p + BitVec.ofNat 32 n) v) p k =
      if k / 8 = n then v.getLsbD (7 - k % 8) else memBit mem p k := by
  rw [memBit]
  split
  next h => rw [h, update_self]
  next h =>
    rw [update_of_ne, memBit]
    intro he
    have := congrArg BitVec.toNat ((BitVec.add_right_inj p).1 he)
    rw [toNat_ofNat, toNat_ofNat, Nat.mod_eq_of_lt (by omega), Nat.mod_eq_of_lt hn] at this
    exact h this

theorem memBit_update_first (hk : k < 2 ^ 32) (v : U8) :
    memBit (Function.update mem p v) p k = if k < 8 then v.getLsbD (7 - k) else memBit mem p k := by
  have hz : p + BitVec.ofNat 32 0 = p := BitVec.add_zero p
  have hu : memBit (Function.update mem (p + BitVec.ofNat 32 0) v) p k = _ :=
    memBit_update (by decide) hk v
  rw [hz] at hu
  rw [hu]
  by_cases h8 : k < 8
  · rw [if_pos (by omega), if_pos h8, Nat.mod_eq_of_lt h8]
  · rw [if_neg (by omega), if_neg h8]

theorem getLsbD_part {w : ℕ} (x : BitVec w) (s : ℕ) (h : i < 8) :
    ((x >>> s).setWidth 8).getLsbD i = x.getLsbD (s + i) := by
  rw [getLsbD_setWidth, getLsbD_ushiftRight, decide_eq_true h, Bool.true_and]

theorem getLsbD_last {w : ℕ} (x : BitVec w) (h : i < 8) :
    (x.setWidth 8).getLsbD i = x.getLsbD i := by
  rw [getLsbD_setWidth, decide_eq_true h, Bool.true_and]

theorem memBit_putMemWord (hk : k < 2 ^ 32) (w : U16) :
    memBit (putMemWord mem p w) p k = if k < 16 then w.getLsbD (15 - k) else memBit mem p k := by
  refine (memBit_update (n := 1) (by decide) hk _).trans ?_
  rw [memBit_update_first hk]
  split
  next h =>
    rw [if_pos (by omega), getLsbD_last _ (by omega)]
    exact congrArg w.getLsbD (by omega)
  split
  next h =>
    rw [if_pos (by omega), getLsbD_part _ _ (by omega)]
    exact congrArg w.getLsbD (by omega)
  next h h8 => rw [if_neg (by omega)]

theorem memBit_putMemLong (hk : k < 2 ^ 32) (l : U32) :
    memBit (putMemLong mem p l) p k = if k < 32 then l.getLsbD (31 - k) else memBit mem p k := by
  refine (memBit_update (n := 3) (by decide) hk _).trans ?_
  split
  next h =>
    rw [if_pos (by omega), getLsbD_last _ (by omega)]
    exact congrArg l.getLsbD (by omega)
  refine (memBit_update (n := 2) (by decide) hk _).trans ?_
  split
  next h =>
    rw [if_pos (by omega), getLsbD_part _ _ (by omega)]
    exact congrArg l.getLsbD (by omega)
  refine (memBit_update (n := 1) (by decide) hk _).trans ?_
  split
  next h =>
    rw [if_pos (by omega), getLsbD_part _ _ (by omega)]
    exact congrArg l.getLsbD (by omega)
  rw [memBit_update_first hk]
  split
  next h =>
    rw [if_pos (by omega), getLsbD_part _ _ (by omega)]
    exact congrArg l.getLsbD (by omega)
  next => rw [if_neg (by omega)]

/-- `x` is none of the `n` bytes from `p` on. -/
def Outside (p : U32) (n : ℕ) (x : U32) : Prop := ∀ i < n, x ≠ p + BitVec.ofNat 32 i

variable {x : U32}

theorem Outside.ne_first (h : Outside p (n + 1) x) : x ≠ p := by
  have hz : p + BitVec.ofNat 32 0 = p := BitVec.add_zero p
  have h0 := h 0 (Nat.succ_pos n)
  rwa [hz] at h0

theorem putMemWord_outside (h : Outside p 2 x) (w : U16) : putMemWord mem p w x = mem x := by
  refine (update_of_ne (h 1 (by decide)) _ _).trans ?_
  exact update_of_ne h.ne_first _ _

theorem putMemLong_outside (h : Outside p 4 x) (l : U32) : putMemLong mem p l x = mem x := by
  refine (update_of_ne (h 3 (by decide)) _ _).trans ?_
  refine (update_of_ne (h 2 (by decide)) _ _).trans ?_
  refine (update_of_ne (h 1 (by decide)) _ _).trans ?_
  exact update_of_ne h.ne_first _ _

theorem Outside.mono {m : ℕ} (h : Outside p n x) (hm : m ≤ n) : Outside p m x :=
  fun i hi => h i (Nat.lt_of_lt_of_le hi hm)

/-- Memories with the same bits in the bytes from `p` on, and the same other bytes. -/
theorem bytes_ext {mem' : Bytes} (hin : ∀ k < 8 * n, memBit mem p k = memBit mem' p k)
    (hout : ∀ x, Outside p n x → mem x = mem' x) : mem = mem' := by
  funext x
  by_cases hx : Outside p n x
  · exact hout x hx
  · unfold Outside at hx
    push Not at hx
    obtain ⟨i, hi, rfl⟩ := hx
    apply eq_of_getLsbD_eq
    intro b hb
    rw [getLsbD_byte mem p i hb, getLsbD_byte mem' p i hb]
    exact hin _ (by omega)

end Aranym.Memory
