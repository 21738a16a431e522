/-
  Fast and long interrupts of the DSP.

  `dsp_postexecute_interrupts` looks at the two words of the vector to tell whether
  the interrupt is long, that is whether one of them is a `jsr`.  It tests the
  high byte and the bits of `opcodes_0b` separately, so that a word of another
  opcode can be taken for a `jsr`.
-/
import Aranym.Dsp.Execute

namespace Aranym.Dsp

variable {inst : U32}

/-! ## The decoder -/

/-- `jsr xxx` and `jsr ea` -/
def IsJsr (inst : U32) : Prop :=
  field inst 16 8 = 0xd ∨ field inst 16 8 = 0xb ∧ bitForm inst = 0x1c
deriving Decidable

/-- The words that start with a parallel move although their high byte is below 0x10. -/
theorem field_of_and_eq (h : inst &&& 0xfe4000 = 0x080000) :
    field inst 16 8 = 8 ∨ field inst 16 8 = 9 := by
  have hn : inst.toNat &&& 0xfe4000 = 0x080000 := by
    simpa using congrArg BitVec.toNat h
  have hs : inst.toNat >>> 16 &&& 0xfe = 8 := by
    simpa using (Nat.shiftRight_and_distrib (a := inst.toNat) (b := 0xfe4000) (i := 16)).symm.trans
      (congrArg (· >>> 16) hn)
  have hf : field inst 16 8 &&& 0xfe = 8 := by
    have h255 : field inst 16 8 = inst.toNat >>> 16 &&& 255 := by
      rw [field, BitVec.toNat_ushiftRight]
      exact (Nat.and_two_pow_sub_one_eq_mod _ 8).symm
    rw [h255, Nat.and_assoc]; exact hs
  have hlt : field inst 16 8 < 256 := Nat.mod_lt _ (by decide)
  have hall : ∀ n < 256, n &&& 0xfe = 8 → n = 8 ∨ n = 9 := by decide +kernel
  exact hall _ hlt hf

theorem opcode8h_b_jsr_iff : opcode8h_b inst = .jsr ↔ bitForm inst = 0x1c := by
  constructor
  · intro h
    unfold opcode8h_b at h
    split at h <;> try exact Handler.noConfusion h
    · assumption
    · split at h <;> exact Handler.noConfusion h
  · intro h
    simp only [opcode8h_b, h]

theorem no_jsr : opcode8h_0 inst ≠ .jsr ∧ opcode8h_1 inst ≠ .jsr ∧ opcode8h_4 inst ≠ .jsr ∧
    opcode8h_6 inst ≠ .jsr ∧ opcode8h_8 inst ≠ .jsr ∧ opcode8h_a inst ≠ .jsr := by
  unfold opcode8h_0 opcode8h_1 opcode8h_4 opcode8h_6 opcode8h_8 opcode8h_a
  refine ⟨?_, ?_, ?_, ?_, ?_, ?_⟩
  all_goals intro h
  all_goals repeat' split at h
  all_goals exact Handler.noConfusion h

theorem opcodes8h_jsr_iff : opcodes8h inst = .jsr ↔ IsJsr inst := by
  obtain ⟨h0, h1, h4, h6, h8, ha⟩ := @no_jsr inst
  unfold opcodes8h IsJsr
  split
  all_goals rename_i hf
  all_goals simp_all [opcode8h_b_jsr_iff]

/-- **The words that `dsp56k_execute_instruction` gives to `dsp_jsr`.** -/
theorem dispatch_jsr_iff : dispatch inst = .single .jsr ↔ IsJsr inst := by
  unfold dispatch
  split_ifs with h
  · rw [Dispatch.single.injEq]
    exact opcodes8h_jsr_iff
  · refine iff_of_false (by simp) fun hj => h ⟨?_, fun ha => ?_⟩
    · rcases hj with hd | ⟨hb, -⟩ <;> omega
    · rcases hj with hd | ⟨hb, -⟩ <;> rcases field_of_and_eq ha with h8 | h9 <;> omega

/-! ## The classification -/

/-- A word of another opcode that has the bits of `jsr ea`. -/
def Mistaken (inst : U32) : Prop :=
  bitForm inst = 0x1c ∧ field inst 16 8 ≠ 0xb ∧ field inst 16 8 ≠ 0xd
deriving Decidable

theorem looksLikeJsr_iff : looksLikeJsr inst ↔ IsJsr inst ∨ Mistaken inst := by
  unfold looksLikeJsr IsJsr Mistaken
  tauto

theorem interruptState_stackPush (d : Dsp) (a b : U32) :
    (d.stackPush a b).interruptState = d.interruptState := by
  unfold stackPush
  split_ifs <;> rfl

theorem takeInterrupt_long_iff (d : Dsp) (ipl : U32) :
    (d.takeInterrupt ipl).interruptState = .long ↔
    looksLikeJsr (d.readMemoryP d.vector) ∨ looksLikeJsr (d.readMemoryP (d.vector + 1)) := by
  unfold takeInterrupt
  dsimp only
  split_ifs with h
  · refine iff_of_true ?_ h
    show (Dsp.stackPush _ _ _).interruptState = .long
    rw [interruptState_stackPush]
  · exact iff_of_false (by simp) h

/-- An interrupt is raised after the instruction. -/
def Raises (d : Dsp) : Prop :=
  d.loopRep = false ∧ d.interruptState ≠ .fast ∧ d.raiseInterrupt.1 ≠ 99
deriving Decidable

/-- The two words of the vector of the interrupt that is raised. -/
def vectorWords (d : Dsp) : U32 × U32 :=
  let d := d.raiseInterrupt.2
  (d.readMemoryP d.vector, d.readMemoryP (d.vector + 1))

/-- **Classification of interrupts.**  An interrupt is marked long exactly if the decoder gives one
    of the two words of its vector to `dsp_jsr`, exactly if one of the words is a `jsr` or none can
    be mistaken for one. -/
theorem long_iff_jsr (d : Dsp) (h : d.Raises) : (d.postexecuteInterrupts.interruptState = .long ↔
      dispatch d.vectorWords.1 = .single .jsr ∨ dispatch d.vectorWords.2 = .single .jsr) ↔
    (IsJsr d.vectorWords.1 ∨ IsJsr d.vectorWords.2 ∨ ¬ Mistaken d.vectorWords.1 ∧
      ¬ Mistaken d.vectorWords.2) := by
  obtain ⟨hrep, hfast, hraise⟩ := h
  have htake : d.postexecuteInterrupts = d.raiseInterrupt.2.takeInterrupt d.raiseInterrupt.1 := by
    unfold postexecuteInterrupts
    rw [if_neg (by simp [hrep]), if_neg hfast]
    exact if_pos hraise
  rw [htake, takeInterrupt_long_iff, dispatch_jsr_iff, dispatch_jsr_iff, looksLikeJsr_iff,
    looksLikeJsr_iff]
  show (((IsJsr d.vectorWords.1 ∨ Mistaken d.vectorWords.1) ∨ IsJsr d.vectorWords.2 ∨
    Mistaken d.vectorWords.2) ↔ _) ↔ _
  tauto

/-- A pending `swi` with the given words in its vector. -/
def swiVector (w1 w2 : U32) : Dsp :=
  let core : DspCore := default
  { (default : Dsp) with swiInter := true, core := (core.setRamint .P 6 w1).setRamint .P 7 w2 }

/-- `jsr p:0x100` and `nop` -/
theorem swi_long_iff_jsr : (swiVector 0x0d0100 0).Raises ∧
    ((swiVector 0x0d0100 0).postexecuteInterrupts.interruptState = .long ↔
      dispatch (swiVector 0x0d0100 0).vectorWords.1 = .single .jsr ∨
      dispatch (swiVector 0x0d0100 0).vectorWords.2 = .single .jsr) :=
  ⟨by decide +kernel,
    (long_iff_jsr (swiVector 0x0d0100 0) (by decide +kernel)).2 (by decide +kernel)⟩

/-- `jmp (r0)-n0` and `nop` make a long interrupt. -/
theorem jmp_mistaken_for_jsr : (swiVector 0x0ac080 0).postexecuteInterrupts.interruptState = .long ∧
      (swiVector 0x0ac080 0).vectorWords = (0x0ac080, 0) ∧
      dispatch 0x0ac080 = .single .jmp ∧ dispatch 0 = .single .nop := by
  decide +kernel

end Aranym.Dsp
