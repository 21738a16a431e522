/-
  The branches of the DSP on a bit: `JCLR`, `JSET`, `JSCLR` and `JSSET`.

  Bit 5 of the word makes the difference between a branch on a bit that is clear
  and one on a bit that is set.  Of the two words exactly one branches, but for the
  subroutine calls on a register, where `opcodes_0b` has `dsp_jsclr` twice.
-/
import Aranym.Dsp.Accumulators
import Aranym.Dsp.Bounds

namespace Aranym.Dsp

open Lib

variable {d : Dsp} {w : U32}

/-! ## Bit 5 of the word -/

theorem field_eq (w : U32) (lo n : ℕ) : field w lo n = w.toNat / 2 ^ lo % 2 ^ n := by
  rw [field, BitVec.toNat_ushiftRight, Nat.shiftRight_eq_div_pow]

theorem toNat_setTest (h : w.getLsbD 5 = false) :
    w.toNat / 2 ^ 5 % 2 = 0 ∧ (w ||| 0x20).toNat = w.toNat + 2 ^ 5 := by
  have hbit : w.toNat / 2 ^ 5 % 2 = 0 := by
    rw [getLsbD_eq_decide, decide_eq_false_iff_not] at h
    omega
  refine ⟨hbit, ?_⟩
  have hlt := w.isLt
  have hand : w &&& 0x20 = 0 := by
    have htwo : (0x20 : U32) = BitVec.twoPow 32 5 := rfl
    rw [htwo, BitVec.and_twoPow, h]
    rfl
  rw [← BitVec.add_eq_or_of_and_eq_zero _ _ hand, BitVec.toNat_add]
  change (_ + 2 ^ 5) % _ = _
  omega

theorem field_setTest (h : w.getLsbD 5 = false) : field (w ||| 0x20) 0 5 = field w 0 5 ∧
    field (w ||| 0x20) 6 1 = field w 6 1 ∧ field (w ||| 0x20) 8 6 = field w 8 6 ∧
    field (w ||| 0x20) 14 2 = field w 14 2 ∧ field (w ||| 0x20) 16 8 = field w 16 8 := by
  obtain ⟨hbit, hset⟩ := toNat_setTest h
  simp only [field_eq, hset]
  refine ⟨?_, ?_, ?_, ?_, ?_⟩ <;> omega

theorem bitForm_setTest (h : w.getLsbD 5 = false) :
    bitForm w % 2 = 0 ∧ bitForm w < 32 ∧ bitForm (w ||| 0x20) = bitForm w + 1 := by
  obtain ⟨hbit, hset⟩ := toNat_setTest h
  simp only [bitForm, field_eq, hset]
  refine ⟨?_, ?_, ?_⟩ <;> omega

theorem bitOperand_setTest (h : w.getLsbD 5 = false) (d : Dsp) :
    d.bitOperand (w ||| 0x20) = d.bitOperand w := by
  obtain ⟨-, h6, h8, h14, -⟩ := field_setTest h
  unfold bitOperand
  rw [h6, h8, h14]

/-! ## The tables -/

theorem field_of_branch (h : opcodes8h w = .jclr ∨ opcodes8h w = .jsclr) :
    field w 16 8 = 0xa ∨ field w 16 8 = 0xb := by
  have h0 : ¬ (opcode8h_0 w = .jclr ∨ opcode8h_0 w = .jsclr) := by
    unfold opcode8h_0
    split_ifs <;> split <;> decide
  have h1 : ¬ (opcode8h_1 w = .jclr ∨ opcode8h_1 w = .jsclr) := by
    unfold opcode8h_1
    split <;> decide
  have h4 : ¬ (opcode8h_4 w = .jclr ∨ opcode8h_4 w = .jsclr) := by
    unfold opcode8h_4
    split <;> decide
  have h6 : ¬ (opcode8h_6 w = .jclr ∨ opcode8h_6 w = .jsclr) := by
    unfold opcode8h_6
    split_ifs <;> decide
  have h8 : ¬ (opcode8h_8 w = .jclr ∨ opcode8h_8 w = .jsclr) := by
    unfold opcode8h_8
    split <;> decide
  unfold opcodes8h at h
  split at h <;> simp_all

theorem opcodes8h_setTest (h5 : w.getLsbD 5 = false)
    (h : opcodes8h w = .jclr ∨ opcodes8h w = .jsclr) :
    field w 16 8 = 0xa ∧ opcodes8h w = .jclr ∧ opcodes8h (w ||| 0x20) = .jset ∨
    field w 16 8 = 0xb ∧ opcodes8h w = .jsclr ∧
      opcodes8h (w ||| 0x20) = if field w 14 2 = 3 then .jsclr else .jsset := by
  obtain ⟨heven, hlt, hform⟩ := bitForm_setTest h5
  obtain ⟨-, -, -, -, h16⟩ := field_setTest h5
  have h14 : field w 14 2 = bitForm w / 8 := by
    rw [bitForm]
    have := field_lt w 5 3
    omega
  -- what is left is about the entries at an even index and the one after it
  rcases field_of_branch h with hw | hw
  · have ha : opcodes8h w = opcode8h_a w := by rw [opcodes8h, hw]; rfl
    have ha' : opcodes8h (w ||| 0x20) = opcode8h_a (w ||| 0x20) := by rw [opcodes8h, h16, hw]; rfl
    rw [ha] at h
    rw [ha, ha']
    refine .inl ⟨hw, ?_⟩
    simp only [opcode8h_a, hform] at h ⊢
    revert heven h
    generalize bitForm w = v at hlt ⊢
    revert v
    decide
  · have hb : opcodes8h w = opcode8h_b w := by rw [opcodes8h, hw]; rfl
    have hb' : opcodes8h (w ||| 0x20) = opcode8h_b (w ||| 0x20) := by rw [opcodes8h, h16, hw]; rfl
    rw [hb] at h
    rw [hb, hb', h14]
    refine .inr ⟨hw, ?_⟩
    simp only [opcode8h_b, hform] at h ⊢
    revert heven h
    generalize bitForm w = v at hlt ⊢
    revert v
    decide

/-! ## Branches -/

/-- The word `w`, executed in the state `d`, branches. -/
def takesBranch (d : Dsp) (w : U32) : Prop := (d.fetched.call w (opcodes8h w)).curInstLen = 0
deriving Decidable

theorem curInstLen_bitJump (on call : Bool) (d : Dsp) (w : U32) :
    (bitJump on call d w).curInstLen = 0 ↔ (d.bitOperand w).1.getLsbD (field w 0 5) = on := by
  unfold bitJump
  dsimp only
  by_cases htest : (d.bitOperand w).1.getLsbD (field w 0 5) = on
  · rw [if_pos htest]
    exact ⟨fun _ => htest, fun _ => rfl⟩
  · rw [if_neg htest]
    exact ⟨fun hlen => absurd hlen (Nat.succ_ne_zero _), fun heq => absurd heq htest⟩

/-- **Branches on a bit** are complementary, but for `JSCLR` and `JSSET` of a register. -/
theorem branches_complementary_iff (h5 : w.getLsbD 5 = false)
    (h : opcodes8h w = .jclr ∨ opcodes8h w = .jsclr) :
    (d.takesBranch w ↔ ¬ d.takesBranch (w ||| 0x20)) ↔
    ¬ (field w 16 8 = 0xb ∧ field w 14 2 = 3) := by
  have hoperand := bitOperand_setTest h5 d.fetched
  have hbit := (field_setTest h5).1
  unfold takesBranch
  rcases opcodes8h_setTest h5 h with ⟨h16, hclr, hset⟩ | ⟨h16, hclr, hset⟩
  · rw [hclr, hset, call, call, jclr, jset, curInstLen_bitJump, curInstLen_bitJump,
      hoperand, hbit, h16]
    simp
  · rw [hclr, hset, h16]
    split_ifs with h14
    · rw [call, call, jsclr, curInstLen_bitJump, curInstLen_bitJump, hoperand, hbit, h14]
      simp
    · rw [call, call, jsclr, jsset, curInstLen_bitJump, curInstLen_bitJump, hoperand, hbit]
      simp [h14]

/-- `JCLR #0,X0,xxxx` and `JSET #0,X0,xxxx` -/
theorem branches_jclr_x0 :
    takesBranch default 0x0ac400 ↔ ¬ takesBranch default (0x0ac400 ||| 0x20) :=
  (branches_complementary_iff (by decide) (.inl (by decide))).2 (by decide)

/-- `JSCLR #0,X0,xxxx` and `JSSET #0,X0,xxxx`, with 0 in `X0`: both call the subroutine. -/
theorem branches_not_complementary :
    opcodes8h 0x0bc400 = .jsclr ∧ takesBranch default 0x0bc400 ∧
    takesBranch default (0x0bc400 ||| 0x20) :=
  ⟨by decide, by decide, by decide⟩

end Aranym.Dsp
