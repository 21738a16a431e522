/-
  The address registers of the DSP: reverse carry and modulo addressing.
-/
import Aranym.Dsp.Accumulators
import Aranym.Dsp.Moves
import Mathlib.Data.Nat.Log

namespace Aranym.Dsp

open BitVec

open DspCore (regM0)
open Lib

/-! ## Bits in reverse order -/

section Reversal

variable {d : Dsp} {num k w : ℕ} {r : U32}

/-- The bits that the loop of `dsp_update_rn_bitreverse` has set after `n` rounds. -/
theorem getLsbD_reverse_loop (init : U32) (hw : w ≤ 32) {n : ℕ} (hn : n ≤ w) (i : ℕ) :
    ((List.range n).foldl
      (fun value i => if r.getLsbD i then value ||| 1#32 <<< (w - i - 1) else value)
      init).getLsbD i =
      (init.getLsbD i || (decide (w - n ≤ i ∧ i < w) && r.getLsbD (w - 1 - i))) := by
  induction n with
  | zero => simp
  | succ n ih =>
    have hbit : (1#32 <<< (w - n - 1)).getLsbD i = decide (i = w - n - 1) := by
      by_cases hi : i = w - n - 1
      all_goals
        simp [hi]
        omega
    rw [List.range_succ, List.foldl_append, List.foldl_cons, List.foldl_nil]
    by_cases hi : i = w - n - 1
    · have hin : w - (n + 1) ≤ i ∧ i < w := by omega
      have hout : ¬ (w - n ≤ i ∧ i < w) := by omega
      have hn' : w - 1 - i = n := by omega
      split_ifs with hr
      · rw [getLsbD_or, hbit, decide_eq_true hi, decide_eq_true hin, hn', hr]
        simp
      · rw [ih (by omega), decide_eq_false hout, decide_eq_true hin, hn',
          Bool.eq_false_of_not_eq_true hr]
        simp
    · have hsame : (w - (n + 1) ≤ i ∧ i < w) ↔ (w - n ≤ i ∧ i < w) := by omega
      simp only [hsame]
      split_ifs with hr
      · rw [getLsbD_or, hbit, decide_eq_false hi, Bool.or_false, ih (by omega)]
      · exact ih (by omega)

theorem reverseBits_eq (hw : w ≤ 32) (r : U32) :
    reverseBits w r = r &&& (bitmask 16 - bitmask w) ||| (r.setWidth w).reverse.setWidth 32 := by
  refine eq_of_getLsbD_eq fun i hi => ?_
  rw [reverseBits, getLsbD_reverse_loop _ hw le_rfl, getLsbD_or, getLsbD_setWidth, getLsbD_reverse,
    getMsbD_eq_getLsbD, getLsbD_setWidth]
  by_cases hlt : i < w
  · have hlt' : w - 1 - i < w := by omega
    simp [hlt, hi, hlt']
  · simp [hlt]

theorem toNat_masks : ∀ w ≤ 16, (bitmask w).toNat = 2 ^ w - 1 ∧
    (bitmask 16 - bitmask w).toNat = (2 ^ (16 - w) - 1) <<< w := by
  decide

theorem toNat_join (hw : w ≤ 16) (hr : Fits 16 r) (x : BitVec w) :
    (r &&& (bitmask 16 - bitmask w) ||| x.setWidth 32).toNat =
      r.toNat / 2 ^ w * 2 ^ w + x.toNat := by
  have hx : (x.setWidth 32).toNat = x.toNat := toNat_setWidth_of_le (by omega)
  rw [toNat_or, toNat_and_high hr (toNat_masks w hw).2, hx, ← Nat.shiftLeft_eq,
    ← Nat.shiftLeft_add_eq_or_of_lt x.isLt]

/-- What is above the bits that are reversed, and these, after they have been joined. -/
theorem join_parts {q : ℕ} {x : BitVec w} (h : r.toNat = q * 2 ^ w + x.toNat) :
    r.toNat / 2 ^ w = q ∧ r.setWidth w = x := by
  have hpos : 0 < 2 ^ w := Nat.two_pow_pos w
  have hdiv : r.toNat / 2 ^ w = q := by
    rw [h, Nat.add_comm, Nat.add_mul_div_right _ _ hpos, Nat.div_eq_of_lt x.isLt, Nat.zero_add]
  refine ⟨hdiv, BitVec.eq_of_toNat_eq ?_⟩
  rw [toNat_setWidth, h, Nat.mul_comm, Nat.mul_add_mod, Nat.mod_eq_of_lt x.isLt]

theorem aligned_le {q c e : ℕ} (hc : c ≤ e) (h : q * 2 ^ c < 2 ^ e) :
    q * 2 ^ c + 2 ^ c ≤ 2 ^ e := by
  have hpow : 2 ^ e = 2 ^ (e - c) * 2 ^ c := by rw [← Nat.pow_add, Nat.sub_add_cancel hc]
  rw [hpow] at h ⊢
  rw [← Nat.succ_mul]
  exact Nat.mul_le_mul_right _ (Nat.lt_of_mul_lt_mul_right h)

theorem block_lt (hw : w ≤ 16) (hr : Fits 16 r) (x : BitVec w) :
    r.toNat / 2 ^ w * 2 ^ w + x.toNat < 2 ^ 16 := by
  have hle := aligned_le hw ((Nat.div_mul_le_self r.toNat (2 ^ w)).trans_lt hr)
  omega

theorem reg_updateRnBitreverse (hr : Fits 16 (d.reg (regR0 + num))) (hw : w ≤ 16)
    (hn : revBits (d.reg (regN0 + num)) = w) :
    ((d.updateRnBitreverse num).reg (regR0 + num)).toNat =
      (d.reg (regR0 + num)).toNat / 2 ^ w * 2 ^ w +
      (revSucc ((d.reg (regR0 + num)).setWidth w)).toNat := by
  unfold updateRnBitreverse
  rw [hn, reg_setReg_self]
  generalize d.reg (regR0 + num) = r at *
  have hreversed := toNat_join hw hr (r.setWidth w).reverse
  rw [← reverseBits_eq (by omega)] at hreversed
  have hvalue : (reverseBits w r + 1) &&& bitmask w = ((r.setWidth w).reverse + 1).setWidth 32 := by
    refine BitVec.eq_of_toNat_eq ?_
    rw [toNat_and_low _ (toNat_masks w hw).1, toNat_add, hreversed, toNat_setWidth_of_le (by omega),
      toNat_add, Nat.mod_mod_of_dvd _ (pow_dvd_pow 2 (by omega)), Nat.add_assoc, Nat.mul_comm,
      Nat.mul_add_mod]
    exact (Nat.add_mod_mod _ 1 _).symm
  rw [hvalue]
  have hjoin := toNat_join hw hr ((r.setWidth w).reverse + 1)
  obtain ⟨hdiv, hlow⟩ := join_parts hjoin
  have hfits : Fits 16
      (r &&& (bitmask 16 - bitmask w) ||| ((r.setWidth w).reverse + 1).setWidth 32) := by
    rw [Fits, hjoin]
    exact block_lt hw hr _
  rw [reverseBits_eq (by omega), hlow]
  rw [toNat_join hw hfits, hdiv, revSucc]

/-- The effective address `(Rn)+Nn`. -/
def plusN (d : Dsp) (num : ℕ) : Dsp := (d.calcEa (8 + num)).2.2

/-- The effective address `(Rn)-Nn`. -/
def minusN (d : Dsp) (num : ℕ) : Dsp := (d.calcEa num).2.2

/-- Reverse carries: 0 in `Mn`, and `2 ^ k` in `Nn`. -/
structure ReverseCarry (d : Dsp) (num k : ℕ) : Prop where
  register : num < 8
  power : k ≤ 15
  modifier : d.reg (regM0 + num) = 0
  offset : d.reg (regN0 + num) = BitVec.ofNat 32 (2 ^ k)
  fits : Fits 16 (d.reg (regR0 + num))

/-- The address register, as a number. -/
def address (d : Dsp) (num : ℕ) : ℕ := (d.reg (regR0 + num)).toNat

theorem revBits_two_pow : ∀ k ≤ 15, revBits (BitVec.ofNat 32 (2 ^ k)) = k + 1 := by decide

theorem ReverseCarry.ea (h : ReverseCarry d num k) :
    d.plusN num = d.updateRnBitreverse num ∧ d.minusN num = d.updateRnBitreverse num := by
  have hnum := h.register
  have hm : (d.reg (regM0 + num)).setWidth 16 = 0 := by rw [h.modifier]; rfl
  have hupdate : ∀ v, d.updateRn num v = d.updateRnBitreverse num :=
    fun v => by rw [updateRn, if_pos hm]
  have hplus : (8 + num) % 8 = num ∧ (8 + num) / 8 % 8 = 1 := by omega
  have hminus : num % 8 = num ∧ num / 8 % 8 = 0 := by omega
  unfold plusN minusN calcEa
  rw [hplus.1, hplus.2, hminus.1, hminus.2]
  exact ⟨hupdate _, hupdate _⟩

theorem ReverseCarry.step (h : ReverseCarry d num k) :
    ReverseCarry (d.updateRnBitreverse num) num k ∧
    (d.updateRnBitreverse num).address num = d.address num / 2 ^ (k + 1) * 2 ^ (k + 1) +
      (revSucc ((d.reg (regR0 + num)).setWidth (k + 1))).toNat := by
  have hk := h.power
  have hstep :=
    reg_updateRnBitreverse (w := k + 1) h.fits (by omega) (by rw [h.offset, revBits_two_pow k hk])
  have hother : ∀ r ≠ regR0 + num, (d.updateRnBitreverse num).reg r = d.reg r :=
    fun r hr => reg_setReg_of_ne d hr _
  refine ⟨⟨h.register, hk, ?_, ?_, ?_⟩, hstep⟩
  · rw [hother _ (by simp only [regM0, regR0]; omega), h.modifier]
  · rw [hother _ (by simp only [regN0, regR0]; omega), h.offset]
  · rw [Fits, hstep]
    exact block_lt (by omega) h.fits _

/-- The first address of the block of `2 ^ (k + 1)` words. -/
def blockStart (d : Dsp) (num k : ℕ) : ℕ := d.address num / 2 ^ (k + 1) * 2 ^ (k + 1)

/-- The address in the block. -/
def blockIndex (d : Dsp) (num k : ℕ) : BitVec (k + 1) := (d.reg (regR0 + num)).setWidth (k + 1)

theorem address_eq (d : Dsp) (num k : ℕ) :
    d.address num = d.blockStart num k + (d.blockIndex num k).toNat := by
  rw [blockStart, blockIndex, toNat_setWidth]
  exact (Nat.div_add_mod' _ _).symm

theorem ReverseCarry.run (h : ReverseCarry d num k) (j : ℕ) :
    ReverseCarry ((fun d => d.plusN num)^[j] d) num k ∧
    ((fun d => d.plusN num)^[j] d).address num =
      d.blockStart num k + (revSucc^[j] (d.blockIndex num k)).toNat := by
  induction j with
  | zero => exact ⟨h, address_eq d num k⟩
  | succ j ih =>
    obtain ⟨hcarry, haddress⟩ := ih
    obtain ⟨hdiv, hlow⟩ := join_parts haddress
    obtain ⟨hcarry', haddress'⟩ := hcarry.step
    rw [Function.iterate_succ_apply', Function.iterate_succ_apply', hcarry.ea.1]
    refine ⟨hcarry', ?_⟩
    rw [haddress', hlow, address, hdiv, blockStart]

/-- The addresses of a block in reverse order. -/
structure VisitsBlock (d : Dsp) (num k : ℕ) : Prop where
  /-- a counter from the reversed index on, reversed -/
  order : ∀ j, ((fun d => d.plusN num)^[j] d).address num =
    d.blockStart num k + ((d.blockIndex num k).reverse + BitVec.ofNat (k + 1) j).reverse.toNat
  visits : ∀ a, d.blockStart num k ≤ a → a < d.blockStart num k + 2 ^ (k + 1) →
    ∃! j, j < 2 ^ (k + 1) ∧ ((fun d => d.plusN num)^[j + 1] d).address num = a
  returns : ((fun d => d.plusN num)^[2 ^ (k + 1)] d).address num = d.address num

theorem visitsBlock (h : ReverseCarry d num k) : VisitsBlock d num k := by
  have hrun := fun j => (h.run j).2
  refine ⟨fun j => ?_, fun a hlo hhi => ?_, ?_⟩
  · rw [hrun, iterate_revSucc]
  · obtain ⟨j, ⟨hj, hy⟩, hunique⟩ :=
      revSucc_visits (revSucc (d.blockIndex num k)) (BitVec.ofNat (k + 1) (a - d.blockStart num k))
    have hiff : ∀ i, ((fun d => d.plusN num)^[i + 1] d).address num = a ↔
        revSucc^[i] (revSucc (d.blockIndex num k)) =
          BitVec.ofNat (k + 1) (a - d.blockStart num k) := by
      intro i
      rw [hrun, Function.iterate_succ_apply, ← toNat_inj, toNat_ofNat, Nat.mod_eq_of_lt (by omega)]
      omega
    exact ⟨j, ⟨hj, (hiff j).2 hy⟩, fun i hi => hunique i ⟨hi.1, (hiff i).1 hi.2⟩⟩
  · rw [hrun, revSucc_period, ← address_eq]

/-- **Reverse carries.**  The updates `(Rn)+Nn` go through the whole block, but `(Rn)-Nn` is another
    step forward: it undoes one only in a block of two words. -/
theorem bit_reversed (h : ReverseCarry d num k) : VisitsBlock d num k ∧
    (((d.plusN num).minusN num).address num = d.address num ↔ k = 0) := by
  refine ⟨visitsBlock h, ?_⟩
  have hminus : (d.plusN num).minusN num = (fun d => d.plusN num)^[2] d := by
    obtain ⟨h1, -⟩ := h.run 1
    exact h1.ea.2.trans h1.ea.1.symm
  have htwo : ((d.plusN num).minusN num).address num =
      d.blockStart num k + (revSucc (revSucc (d.blockIndex num k))).toNat := hminus ▸ (h.run 2).2
  have hstart := address_eq d num k
  have hiff := revSucc_revSucc_iff (d.blockIndex num k)
  rw [← toNat_inj] at hiff
  omega

/-- 0 in `M0`, 1 in `N0`: two words, and the way back. -/
theorem bit_reversed_pair : VisitsBlock (withRegs [(regN0, 1), (regR0, 7)]) 0 0 ∧
    address (minusN (plusN (withRegs [(regN0, 1), (regR0, 7)]) 0) 0) 0 =
      address (withRegs [(regN0, 1), (regR0, 7)]) 0 := by
  have h := @bit_reversed (withRegs [(regN0, 1), (regR0, 7)]) 0 0
    ⟨by decide, by decide, by decide, by decide, by decide⟩
  exact ⟨h.1, h.2.2 rfl⟩

/-- 2 in `N0`, from 0: `(R0)+N0` leads to 2, and `(R0)-N0` from there to 1. -/
theorem bit_reversed_not_undone : ReverseCarry (withRegs [(regN0, 2)]) 0 1 ∧
    address (minusN (plusN (withRegs [(regN0, 2)]) 0) 0) 0 ≠ address (withRegs [(regN0, 2)]) 0 :=
  ⟨⟨by decide, by decide, by decide, by decide, by decide⟩, by decide +kernel⟩

end Reversal

/-! ## Circular buffers -/

section Modulo

variable {d : Dsp} {num m R c : ℕ} {n : ℤ}

/-- The loop of `dsp_update_rn_modulo` ends at the first power of 2 that is not below `modulo`. -/
theorem bufferSize_run {modulo : U16} (hc : c = Nat.clog 2 modulo.toNat) (hc15 : c ≤ 15) {f j : ℕ}
    (hj : j ≤ c) (hf : c ≤ j + f) :
    bufferSize modulo f (1#16 <<< j, 0xffff#16 <<< j) = (1#16 <<< c, 0xffff#16 <<< c) := by
  induction f generalizing j with
  | zero =>
    obtain rfl : j = c := by omega
    rfl
  | succ f ih =>
    have hpow : (1#16 <<< j).toNat = 2 ^ j := by
      rw [toNat_shiftLeft, Nat.shiftLeft_eq, toNat_one (by decide), Nat.one_mul]
      exact Nat.mod_eq_of_lt (Nat.pow_lt_pow_right (by decide) (by omega))
    have hlt : 1#16 <<< j < modulo ↔ j < c := by
      rw [lt_def, hpow, hc, Nat.lt_clog_iff_pow_lt (by decide)]
    rw [bufferSize]
    by_cases hjc : j < c
    · rw [if_pos (hlt.2 hjc), ← shiftLeft_add, ← shiftLeft_add]
      exact ih hjc (by omega)
    · obtain rfl : j = c := by omega
      rw [if_neg (mt hlt.1 hjc)]

/-- The first address of the buffer: the address with its lower bits cleared, enough of them for
    `m + 1` words. -/
def bufferStart (m R : ℕ) : ℕ := R / 2 ^ Nat.clog 2 (m + 1) * 2 ^ Nat.clog 2 (m + 1)

/-- An address in its buffer, and a step that is not longer than it. -/
structure Buffer (m R : ℕ) (n : ℤ) : Prop where
  lower : 1 ≤ m
  upper : m ≤ 32767
  address : R < 65536
  inside : R ≤ bufferStart m R + m
  back : -m ≤ n
  forth : n ≤ m

theorem toNat_bufmask : ∀ c ≤ 15, (0xffff#16 <<< c).toNat = (2 ^ (16 - c) - 1) <<< c := by decide

theorem Buffer.clog_le (h : Buffer m R n) : Nat.clog 2 (m + 1) ≤ 15 :=
  Nat.clog_le_of_le_pow (by have := h.upper; omega)

theorem Buffer.half (h : Buffer m R n) :
    bufferStart m R ≤ R ∧ bufferStart m R + m < 65536 ∧
    (bufferStart m R < 32768 → bufferStart m R + m < 32768) := by
  have hc := h.clog_le
  have hR := h.address
  have hle : bufferStart m R ≤ R := Nat.div_mul_le_self _ _
  have hm : m + 1 ≤ 2 ^ .clog 2 (m + 1) := Nat.le_pow_clog (by decide) _
  refine ⟨hle, ?_, fun hlow => ?_⟩
  · have halign := aligned_le (e := 16) (by omega) (hle.trans_lt hR)
    rw [← bufferStart] at halign
    omega
  · have halign := aligned_le hc hlow
    rw [← bufferStart] at halign
    omega

theorem Buffer.lobound (h : Buffer m R n) {r : U16} (hr : r.toNat = R) :
    (r &&& 0xffff#16 <<< Nat.clog 2 (m + 1)).toNat = bufferStart m R := by
  rw [toNat_and_high (n := 16) (by rw [Fits]; exact r.isLt) (toNat_bufmask _ h.clog_le), hr]
  rfl

theorem Buffer.wrap (h : Buffer m R n) {r lo modulo : U16} (hr : r.toNat = R)
    (hlo : lo.toNat = bufferStart m R) (hmodulo : modulo.toNat = m + 1) :
    (((if (r + BitVec.ofInt 16 n).toInt >
      (lo + modulo - 1).toNat then r + BitVec.ofInt 16 n - modulo
      else if (r + BitVec.ofInt 16 n).toInt < lo.toNat then r + BitVec.ofInt 16 n + modulo
      else r + BitVec.ofInt 16 n).toNat : ℕ) : ℤ) =
    (if bufferStart m R + m < (R + n + 32768) % 65536 - 32768 then R + n - (m + 1)
      else if (R + n + 32768) % 65536 - 32768 < bufferStart m R then R + n + (m + 1)
      else R + n) % 65536 := by
  obtain ⟨hle, hhi, -⟩ := h.half
  have hsum : ((r + BitVec.ofInt 16 n).toNat : ℤ) = (R + n) % 65536 := by
    rw [toNat_add, toNat_ofInt, hr]
    omega
  have hint : (r + BitVec.ofInt 16 n).toInt = (R + n + 32768) % 65536 - 32768 := by
    rw [toInt_eq_toNat_cond]
    split_ifs <;> omega
  have hhibound : (lo + modulo - 1).toNat = bufferStart m R + m := by
    rw [toNat_sub, toNat_add, hlo, hmodulo]
    change (2 ^ 16 - 1 + _) % _ = _
    omega
  rw [hint, hhibound, hlo]
  push_cast
  split_ifs
  · rw [toNat_sub, hmodulo]
    omega
  · rw [toNat_add, hmodulo]
    omega
  · exact hsum

/-- Modulo addressing compares as signed 16-bit numbers, and wraps once at most. -/
theorem address_updateRnModulo (hm : d.reg (regM0 + num) = BitVec.ofNat 32 m)
    (hb : Buffer m (d.address num) n) :
    ((d.updateRnModulo num (BitVec.ofInt 16 n)).address num : ℤ) =
      (if bufferStart m (d.address num) + m <
        (d.address num + n + 32768) % 65536 - 32768 then d.address num + n - (m + 1)
        else if (d.address num + n + 32768) % 65536 - 32768 <
          bufferStart m (d.address num) then d.address num + n + (m + 1)
        else d.address num + n) % 65536 := by
  have hupper := hb.upper
  have hback := hb.back
  have hforth := hb.forth
  have hmodulo : ((d.reg (regM0 + num) + 1).setWidth 16).toNat = m + 1 := by
    rw [hm, toNat_setWidth, toNat_add, toNat_ofNat]
    change (_ + 1) % 2 ^ 32 % _ = _
    omega
  have hr : ((d.reg (regR0 + num)).setWidth 16).toNat = d.address num := by
    exact Nat.mod_eq_of_lt hb.address
  have hn : (BitVec.ofInt 16 n).toInt = n :=
    toInt_ofInt_of_not_outOf (by decide) (by rw [OutOf]; omega)
  have hshort : ¬ (BitVec.ofInt 16 n).toInt > ((d.reg (regM0 + num) + 1).setWidth 16).toNat := by
    omega
  have hother : (BitVec.ofInt 16 n).toInt ≠ ((d.reg (regM0 + num) + 1).setWidth 16).toNat := by
    rw [hn, hmodulo]
    omega
  have hsize : bufferSize ((d.reg (regM0 + num) + 1).setWidth 16) 16 (1, 0xffff) =
      (1#16 <<< Nat.clog 2 (m + 1), 0xffff#16 <<< Nat.clog 2 (m + 1)) :=
    bufferSize_run (j := 0) (by rw [hmodulo]) hb.clog_le (by omega) (by have := hb.clog_le; omega)
  have hwrap := hb.wrap hr (hb.lobound hr) hmodulo
  rw [← hwrap]
  unfold updateRnModulo
  dsimp only
  rw [hsize, if_neg hshort, if_pos hother, address, reg_setReg_self,
    toNat_setWidth_of_le (by decide)]

/-- The address after the step is in the same buffer, and is the right one there. -/
structure StaysInBuffer (m R : ℕ) (n : ℤ) (R' : ℕ) : Prop where
  lower : bufferStart m R ≤ R'
  upper : R' ≤ bufferStart m R + m
  step : ((m : ℤ) + 1) ∣ R' - (R + n)

/-- The sum compares with the bounds as numbers of 16 bits with a sign do, or the buffer is half of
    the memory. -/
def SignKept (m R : ℕ) (n : ℤ) : Prop :=
  bufferStart m R < 32768 ∧ (R + n < 32768 ∨ m = 32767) ∨
  32768 ≤ bufferStart m R ∧ (R + n < bufferStart m R ∨ bufferStart m R + m < R + n ∧ m = 32767)
deriving Decidable

/-- The only address in the buffer that a modulo update may give. -/
theorem staysInBuffer_iff (h : Buffer m R n) {R' : ℕ} : StaysInBuffer m R n R' ↔
    (R' : ℤ) = if bufferStart m R + m < R + n then R + n - (m + 1)
      else if R + n < bufferStart m R then R + n + (m + 1) else R + n := by
  obtain ⟨hle, -, -⟩ := h.half
  have hinside := h.inside
  have hback := h.back
  have hforth := h.forth
  -- the address on the right is in the buffer, and no two addresses of it are congruent
  generalize hW : (if (bufferStart m R : ℤ) + m < R + n then R + n - (m + 1)
    else if R + n < bufferStart m R then R + n + (m + 1) else R + n : ℤ) = W
  have hdvd : ((m : ℤ) + 1) ∣ W - (R + n) := by
    rw [← hW]
    split_ifs
    · exact ⟨-1, by ring⟩
    · exact ⟨1, by ring⟩
    · exact ⟨0, by ring⟩
  constructor
  · rintro ⟨hlo, hhi, hstep⟩
    have hdiff : ((m : ℤ) + 1) ∣ R' - W := by
      have hsub := dvd_sub hstep hdvd
      rwa [sub_sub_sub_cancel_right] at hsub
    have hzero := Int.eq_zero_of_abs_lt_dvd hdiff (abs_lt.2 ⟨by omega, by omega⟩)
    omega
  · rintro rfl
    exact ⟨by omega, by omega, hdvd⟩

/-- **Modulo addressing.**  The pointer is compared with its sign and the bounds without: the
    address is right if and only if this makes no difference. -/
theorem modulo_exact_iff (hm : d.reg (regM0 + num) = BitVec.ofNat 32 m)
    (hb : Buffer m (d.address num) n) :
    StaysInBuffer m (d.address num) n ((d.updateRn num (BitVec.ofInt 16 n)).address num) ↔
      SignKept m (d.address num) n := by
  have haddress := address_updateRnModulo hm hb
  have hupdate : d.updateRn num (.ofInt 16 n) = d.updateRnModulo num (.ofInt 16 n) := by
    have hlower := hb.lower
    have hupper := hb.upper
    have hM : ((d.reg (regM0 + num)).setWidth 16).toNat = m := by
      rw [hm, toNat_setWidth, toNat_ofNat]
      omega
    have hne : (d.reg (regM0 + num)).setWidth 16 ≠ 0 := by
      rw [Ne, ← toNat_inj, hM]
      exact Nat.one_le_iff_ne_zero.1 hlower
    have hle : (d.reg (regM0 + num)).setWidth 16 ≤ 32767 := by
      rw [le_def, hM]
      exact hupper
    rw [updateRn, if_neg hne, if_pos hle]
  obtain ⟨hle, hhi, hhalf⟩ := hb.half
  have hinside := hb.inside
  have hback := hb.back
  have hforth := hb.forth
  have hupper := hb.upper
  rw [hupdate, staysInBuffer_iff hb, haddress, SignKept]
  generalize d.address num = R at *
  generalize bufferStart m R = lo at *
  split_ifs <;> omega

/-- Four words at 0: from 3 on by 2, to 1. -/
theorem modulo_four :
    StaysInBuffer 3 3 2 (address
    (updateRn (withRegs [(regM0, 3), (regR0, 3)]) 0 (BitVec.ofInt 16 2)) 0) :=
  (@modulo_exact_iff (withRegs [(regM0, 3), (regR0, 3)]) 0 3 2 (by decide)
    ⟨by decide, by decide, by decide, by decide +kernel, by decide, by decide⟩).2
      (by decide +kernel)

/-- Four words at `0x8000`: a step by 1 from the first one leaves the buffer. -/
theorem modulo_not_exact :
    Buffer 3 0x8000 1 ∧ address (withRegs [(regM0, 3), (regR0, 0x8000)]) 0 = 0x8000 ∧
    ¬ StaysInBuffer 3 0x8000 1
      (address (updateRn (withRegs [(regM0, 3), (regR0, 0x8000)]) 0 (BitVec.ofInt 16 1)) 0) := by
  refine ⟨⟨by decide, by decide, by decide, by decide +kernel, by decide, by decide⟩,
    by decide +kernel, fun h => ?_⟩
  exact absurd h.upper (by decide +kernel)

end Modulo

end Aranym.Dsp
