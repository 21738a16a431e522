/-
  Where an instruction of the DSP is, and how many words it has.

  `place` is `pc` with `cur_inst_len`.  Only jumps, loops, undefined words and
  the second word of an effective address change it.
-/
import Aranym.Dsp.Handlers

namespace Aranym.Dsp

variable {d : Dsp} {inst : U32}

/-- The address of the current instruction, and its length. -/
def place (d : Dsp) : U16 × ℕ := (d.pc, d.curInstLen)

/-! ## Registers -/

@[simp] theorem place_setReg (d : Dsp) (r : ℕ) (v : U32) : (d.setReg r v).place = d.place := rfl

@[simp] theorem place_updateSr (d : Dsp)
    (clear set : U32) : (d.updateSr clear set).place = d.place := rfl

@[simp] theorem place_setAccu (d : Dsp) (n : ℕ) (x : Limbs) : (d.setAccu n x).place = d.place := rfl

@[simp] theorem place_limit (d : Dsp) (limited : Bool) : (d.limit limited).place = d.place := by
  unfold limit
  split_ifs <;> rfl

@[simp] theorem place_readSource (d : Dsp) (r : ℕ) : (d.readSource r).2.place = d.place := by
  unfold readSource
  split_ifs
  · exact place_limit _ _
  · rfl

@[simp] theorem place_writeDest (d : Dsp) (r : ℕ) (v : U32) :
    (d.writeDest r v).place = d.place := by
  unfold writeDest
  split_ifs <;> rfl

/-! ## Effective addresses -/

/-- The effective address has a second word: an absolute address, or an immediate value. -/
def EaLong (ea : ℕ) : Prop := ea / 8 % 8 = 6
deriving Decidable

@[simp] theorem place_updateRn (d : Dsp) (n : ℕ) (m : U16) : (d.updateRn n m).place = d.place := by
  unfold updateRn
  dsimp only
  split_ifs <;> rfl

theorem place_calcEa {ea : ℕ} (h : ¬ EaLong ea) : (d.calcEa ea).2.2.place = d.place := by
  unfold calcEa
  split
  · exact place_updateRn _ _ _
  · exact place_updateRn _ _ _
  · exact place_updateRn _ _ _
  · exact place_updateRn _ _ _
  · rfl
  · exact place_updateRn _ _ _
  · exact absurd ‹_› h
  · exact place_updateRn _ _ _

theorem place_calcEa_long {ea : ℕ} (h : EaLong ea) :
    (d.calcEa ea).2.2.place = (d.pc, d.curInstLen + 1) := by
  unfold calcEa
  rw [h]
  rfl

theorem not_eaLong_field (inst : U32) (lo : ℕ) : ¬ EaLong (field inst lo 5) := by
  have hlt := field_lt inst lo 5
  unfold EaLong
  omega

/-! ## Instructions with parallel moves -/

@[simp] theorem place_ccr (d : Dsp) (x : Limbs) : (d.ccr x).place = d.place := by
  have hext : (d.ccrExtension x.hi x.mid).place = d.place := by
    unfold ccrExtension
    split <;> rfl
  have hunn : ((d.ccrExtension x.hi x.mid).ccrUnnormalized x.hi x.mid).place = d.place := by
    rw [← hext]
    unfold ccrUnnormalized
    split <;> rfl
  exact hunn

section
variable (d : Dsp) (n : ℕ) (x : Limbs) (newsr : U32)

@[simp] theorem place_finish : (d.finish n x newsr).place = d.place := by
  rw [finish, place_updateSr, place_ccr, place_setAccu]

@[simp] theorem place_finishShift : (d.finishShift n x newsr).place = d.place := by
  rw [finishShift, place_ccr, place_updateSr, place_setAccu]

@[simp] theorem place_finishMul : (d.finishMul n x newsr).place = d.place := by
  rw [finishMul, place_updateSr, place_ccr, place_setAccu]

end

section Families

variable (op : Limbs → Limbs → Limbs × U32) (shift : Limbs → Limbs × U32)

theorem place_withCarry : (d.withCarry op inst).place = d.place := by
  unfold withCarry
  dsimp only
  split_ifs <;> exact place_finish _ _ _ _

theorem place_addSub : (d.addSub op inst).place = d.place := by
  unfold addSub
  split
  · rfl
  · exact place_finish _ _ _ _

theorem place_shiftOp : (d.shiftOp shift op inst).place = d.place := by
  exact place_finish _ _ _ _

theorem place_shiftAccu : (d.shiftAccu shift inst).place = d.place := by
  exact place_finishShift _ _ _ _

end Families

/-- **Instructions with parallel moves** stay where they are. -/
theorem place_callAlu {a : AluHandler} (h : a ≠ .undefined) :
    (d.callAlu inst a).place = d.place := by
  cases a with
  | undefined => exact absurd rfl h
  | adc => exact place_withCarry add56
  | sbc => exact place_withCarry sub56
  | add => exact place_addSub add56
  | sub => exact place_addSub sub56
  | addl => exact place_shiftOp add56 asl56
  | addr => exact place_shiftOp add56 asr56
  | subl => exact place_shiftOp sub56 asl56
  | subr => exact place_shiftOp sub56 asr56
  | asl => exact place_shiftAccu asl56
  | asr => exact place_shiftAccu asr56
  | mac | macr | mpy | mpyr => simp only [callAlu, mac, macr, mpy, mpyr, place_finishMul]
  | abs | neg | rnd | tst => simp only [callAlu, abs, neg, rnd, tst, place_ccr, place_updateSr,
    place_setAccu]
  | and | eor | or | not | lsl | rol | ror | lsr | clr | move => rfl
  | cmp =>
    simp only [callAlu, cmp]
    split
    · rfl
    · rw [place_updateSr, place_ccr]
  | cmpm =>
    simp only [callAlu, cmpm]
    split
    · rfl
    · rw [place_updateSr, place_ccr]
  | tfr =>
    simp only [callAlu, tfr]
    split <;> rfl

/-! ## Parallel moves -/

@[simp] theorem place_pmMove (d : Dsp) (toReg : Bool) (space : DspSpace) (addr : U32)
    (retour : Bool) (numreg : ℕ) : (d.pmMove toReg space addr retour numreg).1.place = d.place := by
  unfold pmMove
  split_ifs
  · rfl
  · rfl
  · exact place_readSource _ _

theorem place_pm0 (h : ¬ EaLong (field inst 8 6)) : (d.pm0 inst).1.place = d.place := by
  unfold pm0
  rw [place_limit, place_calcEa h]

theorem place_pm1 (h : ¬ EaLong (field inst 8 6)) : (d.pm1 inst).1.place = d.place := by
  unfold pm1
  rw [place_limit, place_pmMove, place_calcEa h]

theorem place_pm2 : (d.pm2 inst).1.place = d.place := by
  unfold pm2
  split_ifs
  · rfl
  · exact place_calcEa (not_eaLong_field inst 8)
  · unfold pm2_2
    dsimp only
    split
    · exact place_limit _ _
    · rfl
  · rfl

section

variable (h : inst.getLsbD 14 = true → ¬ EaLong (field inst 8 6))
include h

theorem place_pmAddr : (d.pmAddr inst).2.2.place = d.place := by
  unfold pmAddr
  split_ifs with h14
  · exact place_calcEa (h h14)
  · rfl

omit h in
@[simp] theorem place_pm4x (d : Dsp) (inst addr : U32) : (d.pm4x inst addr).1.place = d.place := by
  have hsource : ∀ n, (d.pm4xSource n).2.2.place = d.place := by
    intro n
    unfold pm4xSource
    dsimp only
    split
    · rfl
    · split
      · exact place_limit _ _
      · exact (place_limit _ _).trans (place_limit _ _)
  unfold pm4x
  dsimp only
  split_ifs
  · rfl
  · rfl
  · exact hsource _

theorem place_pm5 : (d.pm5 inst).1.place = d.place := by
  unfold pm5
  rw [place_pmMove, place_pmAddr h]

theorem place_pm4 : (d.pm4 inst).1.place = d.place := by
  unfold pm4
  split_ifs
  · exact (place_pm4x _ _ _).trans (place_pmAddr h)
  · exact place_pm5 h

end

theorem place_pm8 (h1 : ¬ EaLong (pm8Ea inst).1) (h2 : ¬ EaLong (pm8Ea inst).2) :
    (d.pm8 inst).1.place = d.place := by
  unfold pm8
  rw [place_pmMove, place_pmMove, place_calcEa h2, place_calcEa h1]

theorem place_parmoveRead (h : ∀ ea ∈ pmEas inst, ¬ EaLong ea) :
    (d.parmoveRead inst).1.place = d.place := by
  unfold pmEas at h
  unfold parmoveRead
  split
  · exact place_pm0 (h _ (by simp [*]))
  · exact place_pm1 (h _ (by simp [*]))
  · exact place_pm2
  · rfl
  · exact place_pm4 fun h14 => h _ (by simp [*])
  · exact place_pm5 fun h14 => h _ (by simp [*])
  · exact place_pm5 fun h14 => h _ (by simp [*])
  · exact place_pm5 fun h14 => h _ (by simp [*])
  · exact place_pm8 (h _ (by simp [*])) (h _ (by simp [*]))

@[simp] theorem place_parmoveWrite (d : Dsp) (ws : List PmWrite) :
    (d.parmoveWrite ws).place = d.place := by
  unfold parmoveWrite
  induction ws generalizing d with
  | nil => rfl
  | cons w ws ih =>
    rw [List.foldl_cons, ih]
    cases w <;> rfl

/-! ## Other instructions -/

/-- Neither a jump, a call, a return nor a loop, and no undefined word. -/
def Handler.isStraight (inst : U32) : Handler → Bool
  | .undefined | .do | .enddo | .jcc | .jclr | .jmp | .jscc | .jsclr | .jset | .jsr | .jsset | .rep
  | .rti | .rts => false
  | .movec => 3 ≤ movecForm inst
  | _ => true

theorem Handler.isControl_of_isStraight {k : Handler} (h : k.isStraight inst) :
    k.isControl = false := by
  cases k with
  | «do» | enddo | jscc | jsclr | jsr | jsset | rep | rti | rts => cases h
  | _ => rfl

theorem place_bitOperand (h : field inst 14 2 = 1 → ¬ EaLong (field inst 8 6)) :
    (d.bitOperand inst).2.2.place = d.place := by
  unfold bitOperand
  split
  · rfl
  · exact place_calcEa (h ‹_›)
  all_goals rfl

theorem place_bitOp {f : U32 → ℕ → U32} {ext : U32 → U32}
    (h : field inst 14 2 = 1 → ¬ EaLong (field inst 8 6)) :
    (bitOp f ext d inst).place = d.place := by
  have hoperand := place_bitOperand (d := d) h
  unfold bitOp
  dsimp only
  split
  · exact hoperand
  · split_ifs <;> exact hoperand

theorem place_movec (hf : 3 ≤ movecForm inst) (h : movecForm inst = 5 → ¬ EaLong (field inst 8 6)) :
    (d.movec inst).place = d.place := by
  unfold movec
  split
  · unfold movecReg
    dsimp only
    split_ifs
    · rw [place_setReg, place_limit, place_setReg]
    · rfl
    · exact place_writeDest _ _ _
  · unfold movecAa
    dsimp only
    split_ifs <;> rfl
  · have hea := place_calcEa (d := d) (h ‹_›)
    unfold movecEa
    dsimp only
    split_ifs <;> exact hea
  · rfl
  · rfl
  · exfalso
    have h16 := field_lt inst 16 1
    have h7 := field_lt inst 7 1
    have h14 := field_lt inst 14 1
    have hform : movecForm inst = field inst 16 1 * 4 + field inst 7 1 * 2 + field inst 14 1 := rfl
    obtain h' | h' | h' | h' | h' : movecForm inst = 3 ∨ movecForm inst = 4 ∨ movecForm inst = 5 ∨
        movecForm inst = 6 ∨ movecForm inst = 7 := by omega
    all_goals contradiction

theorem place_movem (h : inst.getLsbD 14 = true → ¬ EaLong (field inst 8 6)) :
    (d.movem inst).place = d.place := by
  unfold movem
  dsimp only
  split_ifs with h15 h14 h14
  · exact (place_writeDest _ _ _).trans (place_calcEa (h h14))
  · exact place_writeDest _ _ _
  · exact (place_readSource _ _).trans (place_calcEa (h h14))
  · exact place_readSource _ _

theorem place_movep (h : field inst 6 2 ≠ 0 → ¬ EaLong (field inst 8 6)) :
    (d.movep inst).place = d.place := by
  unfold movep
  split
  · unfold movep0
    split_ifs
    · exact place_readSource _ _
    · exact place_writeDest _ _ _
  · have hea := place_calcEa (d := d) (h (by omega))
    unfold movep1
    split_ifs <;> exact hea
  · have hea := place_calcEa (d := d) (h ‹_›)
    unfold movep2
    dsimp only
    split_ifs <;> exact hea

theorem place_tcc : (d.tcc inst).place = d.place := by
  unfold tcc
  split_ifs <;> rfl

/-- **Instructions without parallel moves** stay where they are. -/
theorem place_call {k : Handler} (hk : k.isStraight inst) (h : ∀ ea ∈ k.eas inst, ¬ EaLong ea) :
    (d.call inst k).place = d.place := by
  cases k with
  | undefined | «do» | enddo | jcc | jclr | jmp | jscc | jsclr | jset | jsr | jsset | rep | rti
  | rts => cases hk
  | unmatched | illegal | nop | reset | stop | wait | swi => rfl
  | andi =>
    simp only [call, andi]
    split <;> rfl
  | ori =>
    simp only [call, ori]
    split <;> rfl
  | bchg | bclr | bset =>
    simp only [call, bchg, bclr, bset]
    exact place_bitOp fun h1 => h _ (by simp [Handler.eas, h1])
  | btst => exact place_bitOperand fun h1 => h _ (by simp [Handler.eas, h1])
  | div => rfl
  | lua => exact place_calcEa (not_eaLong_field inst 8)
  | movec =>
    exact place_movec (by simpa [Handler.isStraight] using hk) fun h5 =>
      h _ (by simp [Handler.eas, h5])
  | movem => exact place_movem fun h14 => h _ (by simp [Handler.eas, h14])
  | movep => exact place_movep fun h0 => h _ (by simp [Handler.eas, h0])
  | norm =>
    simp only [call, norm]
    split_ifs <;> rw [place_finish]
    all_goals rfl
  | tcc => exact place_tcc
  | movePm => exact (place_parmoveWrite _ _).trans (place_parmoveRead h)

end Aranym.Dsp
