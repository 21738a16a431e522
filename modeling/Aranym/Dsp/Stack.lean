/-
  The system stack of the DSP, and what uses it: calls, loops, returns, the
  program counter at the end of a loop, and interrupts.

  The stack is two arrays of 15 words with three index registers, `SP`, `SSH`
  and `SSL`, which an instruction can also write one by one.  `Sound` is what
  holds if none does: the registers agree.  It carries two more facts along,
  each under a condition of its own: all registers are within their widths, and
  no element outside of the arrays has been used.
-/
import Aranym.Dsp.Handlers

namespace Aranym.Dsp

open Lib

variable {T : ℕ → Prop} {C : Prop} {d d' : Dsp} {inst : U32}

/-! ## Push and pop -/

theorem stackPush_full (h : d.reg regSP = 0x0f) (a b : U32) : d.stackPush a b = d := if_pos h

theorem reg_stackPush (h : d.reg regSP ≠ 0x0f) (a b : U32) (r : ℕ) :
    (d.stackPush a b).reg r = if IsPointer r then d.reg r + 1 else d.reg r := by
  have hregs : (d.stackPush a b).reg r = (((d.setReg regSP (d.reg regSP + 1)).setReg regSSH
      (d.reg regSSH + 1)).setReg regSSL (d.reg regSSL + 1)).reg r := by
    rw [stackPush, if_neg h]
    rfl
  rw [hregs, reg_setReg, reg_setReg, reg_setReg]
  by_cases hp : IsPointer r
  · rw [if_pos hp]
    rcases hp with rfl | rfl | rfl <;> rfl
  · rw [if_neg hp]
    simp only [IsPointer, not_or] at hp
    rw [if_neg hp.2.2, if_neg hp.2.1, if_neg hp.1]

variable {r : ℕ}

theorem reg_stackPush_of_not (hp : ¬ IsPointer r) (a b : U32) :
    (d.stackPush a b).reg r = d.reg r := by
  by_cases hfull : d.reg regSP = 0x0f
  · rw [stackPush_full hfull]
  · rw [reg_stackPush hfull, if_neg hp]

theorem stack_stackPush (h : d.reg regSP ≠ 0x0f) (a b : U32) :
    (d.stackPush a b).stack = Function.update (Function.update d.stack 0
      (Function.update (d.stack 0) (d.reg regSSH + 1).toNat (a.setWidth 16))) 1
      (Function.update (d.stack 1) (d.reg regSSL + 1).toNat (b.setWidth 16)) := by
  rw [stackPush, if_neg h]
  rfl

theorem stackFault_stackPush (h : d.reg regSP ≠ 0x0f) (a b : U32) : (d.stackPush a b).stackFault =
    (d.stackFault || 15 ≤ (d.reg regSSH + 1).toNat || 15 ≤ (d.reg regSSL + 1).toNat) := by
  rw [stackPush, if_neg h]
  rfl

theorem reg_stackDrop (d : Dsp) (r : ℕ) :
    d.stackDrop.reg r = if IsPointer r then d.reg r - 1 else d.reg r := by
  have hregs : d.stackDrop.reg r = (((d.setReg regSP (d.reg regSP - 1)).setReg regSSH
      (d.reg regSSH - 1)).setReg regSSL (d.reg regSSL - 1)).reg r := rfl
  rw [hregs, reg_setReg, reg_setReg, reg_setReg]
  by_cases hp : IsPointer r
  · rw [if_pos hp]
    rcases hp with rfl | rfl | rfl <;> rfl
  · rw [if_neg hp]
    simp only [IsPointer, not_or] at hp
    rw [if_neg hp.2.2, if_neg hp.2.1, if_neg hp.1]

theorem stackTop_of_ne (h : d.reg regSP ≠ 0) : d.stackTop =
    some ((d.stack 0 (d.reg regSSH).toNat).setWidth 32,
      (d.stack 1 (d.reg regSSL).toNat).setWidth 32,
      d.useStack (d.reg regSSH) (d.reg regSSL)) := if_neg h

theorem stackTop_of_eq (h : d.reg regSP = 0) : d.stackTop = none := if_pos h

/-- The entries that an instruction pushes. -/
def pushes (d : Dsp) (inst : U32) : Handler → ℕ
  | .do => 2
  | .jsr => if d.interruptState = .long then 0 else 1
  | .jscc => if (d.jumpTarget inst 0x0b).2.2.calcCc (d.jumpTarget inst 0x0b).2.1 then 1 else 0
  | .jsclr => if (d.bitOperand inst).1.getLsbD (field inst 0 5) = false then 1 else 0
  | .jsset => if (d.bitOperand inst).1.getLsbD (field inst 0 5) = true then 1 else 0
  | _ => 0

/-! ## Sound states -/

/-- The index registers agree.  If `W` then all registers are within their widths; if `F` then the
    stack has at most 14 entries, and only its elements have been used. -/
structure Sound (W F : Prop) (d : Dsp) : Prop where
  ssh : d.reg regSSH = d.reg regSP
  ssl : d.reg regSSL = d.reg regSP
  le : (d.reg regSP).toNat ≤ 15
  within : W → d.WithinWidths
  shallow : F → (d.reg regSP).toNat ≤ 14 ∧ d.stackFault = false

namespace Sound

variable {W F : Prop}

variable (h : Sound W F d)
include h

theorem effect (e : Effect T W d d') (hT : ∀ r, IsPointer r → ¬ T r) : Sound W F d' := by
  have hkeep : ∀ r, IsPointer r → d'.reg r = d.reg r := fun r hr =>
    e.keep r (.inr (by rcases hr with rfl | rfl | rfl <;> decide)) (hT r hr)
  have hsp := hkeep regSP (.inl rfl)
  have hfault : d'.stackFault = d.stackFault := congrArg (·.2.2.2.2) e.background
  refine ⟨?_, ?_, ?_, fun hW => e.within hW (h.within hW), fun hF => ?_⟩
  · rw [hsp, hkeep regSSH (.inr (.inl rfl))]; exact h.ssh
  · rw [hsp, hkeep regSSL (.inr (.inr rfl))]; exact h.ssl
  · rw [hsp]; exact h.le
  · rw [hsp, hfault]; exact h.shallow hF

theorem congr (hr : ∀ r, d'.reg r = d.reg r) (hf : d'.stackFault = d.stackFault) :
    Sound W F d' := by
  refine ⟨?_, ?_, ?_, fun hW r => ?_, fun hF => ?_⟩
  · rw [hr, hr]; exact h.ssh
  · rw [hr, hr]; exact h.ssl
  · rw [hr]; exact h.le
  · rw [hr]; exact h.within hW r
  · rw [hr, hf]; exact h.shallow hF

theorem setReg {r : ℕ} {v : U32} (hp : ¬ IsPointer r) (hv : W → Fits (width r) v) :
    Sound W F (d.setReg r v) := by
  have hkeep : ∀ r', IsPointer r' → (d.setReg r v).reg r' = d.reg r' := fun r' hr' =>
    reg_setReg_of_ne _ (fun heq : r' = r => hp (heq ▸ hr')) _
  have hsp := hkeep regSP (.inl rfl)
  refine ⟨?_, ?_, ?_, fun hW r' => ?_, fun hF => ?_⟩
  · rw [hsp, hkeep regSSH (.inr (.inl rfl))]; exact h.ssh
  · rw [hsp, hkeep regSSL (.inr (.inr rfl))]; exact h.ssl
  · rw [hsp]; exact h.le
  · rw [reg_setReg]
    split_ifs with heq
    · subst heq; exact hv hW
    · exact h.within hW r'
  · rw [hsp]; exact h.shallow hF

theorem setWord (r : ℕ) (x : U16) (hp : ¬ IsPointer r) (hr : width r = 16) :
    Sound W F (d.setReg r (x.setWidth 32)) := by
  refine h.setReg hp fun _ => ?_
  rw [hr]
  exact fits_setWidth (fits_self le_rfl)

theorem toNat_succ : (d.reg regSP + 1).toNat = (d.reg regSP).toNat + 1 := by
  have := h.le
  rw [BitVec.toNat_add, Nat.mod_eq_of_lt]
  · rfl
  · change (d.reg regSP).toNat + 1 < 2 ^ 32
    omega

omit h in
theorem toNat_pred (hne : d.reg regSP ≠ 0) : (d.reg regSP - 1).toNat = (d.reg regSP).toNat - 1 := by
  have hpos : (d.reg regSP).toNat ≠ 0 := fun h0 => hne (BitVec.eq_of_toNat_eq h0)
  have hle : (1#32) ≤ d.reg regSP := by
    rw [BitVec.le_def]
    change 1 ≤ _
    omega
  exact BitVec.toNat_sub_of_le hle

omit h in
theorem width_pointer {r : ℕ} (h : IsPointer r) : width r = 6 := by
  rcases h with rfl | rfl | rfl <;> rfl

theorem reg_pointer {r : ℕ} (hr : IsPointer r) : d.reg r = d.reg regSP := by
  rcases hr with rfl | rfl | rfl
  exacts [rfl, h.ssh, h.ssl]

theorem stackPush (a b : U32) (hroom : F → (d.reg regSP).toNat < 14) :
    Sound W F (d.stackPush a b) := by
  by_cases hfull : d.reg regSP = 0x0f
  · rw [stackPush_full hfull]; exact h
  have hreg := reg_stackPush hfull a b
  have hsp : (d.stackPush a b).reg regSP = d.reg regSP + 1 := (hreg _).trans (if_pos (by decide))
  have hne : (d.reg regSP).toNat ≠ 15 := fun h15 => hfull (BitVec.eq_of_toNat_eq h15)
  have hle := h.le
  refine ⟨?_, ?_, ?_, fun hW r => ?_, fun hF => ?_⟩
  · rw [hreg, if_pos (by decide), hsp, h.ssh]
  · rw [hreg, if_pos (by decide), hsp, h.ssl]
  · rw [hsp, h.toNat_succ]; omega
  · rw [hreg]
    split_ifs with hp
    · rw [width_pointer hp, h.reg_pointer hp, Fits, h.toNat_succ]
      omega
    · exact h.within hW r
  · have hlt := hroom hF
    rw [hsp, stackFault_stackPush hfull, h.ssh, h.ssl, h.toNat_succ, (h.shallow hF).2]
    refine ⟨hlt, ?_⟩
    simp only [Bool.false_or, Bool.or_self, decide_eq_false_iff_not]
    omega

theorem useStack : Sound W F (d.useStack (d.reg regSSH) (d.reg regSSL)) := by
  refine ⟨h.ssh, h.ssl, h.le, h.within, fun hF => ⟨(h.shallow hF).1, ?_⟩⟩
  have hle := (h.shallow hF).1
  rw [Dsp.useStack, h.ssh, h.ssl, (h.shallow hF).2]
  simp only [Bool.false_or, Bool.or_self, decide_eq_false_iff_not]
  omega

theorem stackDrop (hne : d.reg regSP ≠ 0) : Sound W F d.stackDrop := by
  have hreg := reg_stackDrop d
  have hsp : d.stackDrop.reg regSP = d.reg regSP - 1 := (hreg _).trans (if_pos (by decide))
  have hpred := toNat_pred hne
  have hle := h.le
  refine ⟨?_, ?_, ?_, fun hW r => ?_, fun hF => ?_⟩
  · rw [hreg, if_pos (by decide), hsp, h.ssh]
  · rw [hreg, if_pos (by decide), hsp, h.ssl]
  · rw [hsp, hpred]; omega
  · rw [hreg]
    split_ifs with hp
    · rw [width_pointer hp, h.reg_pointer hp, Fits, hpred]
      omega
    · exact h.within hW r
  · have hlt := (h.shallow hF).1
    exact ⟨by rw [hsp, hpred]; omega, (h.shallow hF).2⟩

theorem popSr : Sound W F d.popSr := by
  by_cases h0 : d.reg regSP = 0
  · rw [Dsp.popSr, stackTop_of_eq h0]; exact h
  · rw [Dsp.popSr, stackTop_of_ne h0]
    exact (h.useStack.setWord regSR _ (by decide) rfl).stackDrop h0

theorem popLoop : Sound W F d.popLoop := by
  by_cases h0 : d.reg regSP = 0
  · rw [Dsp.popLoop, stackTop_of_eq h0]; exact h
  · rw [Dsp.popLoop, stackTop_of_ne h0]
    exact ((h.useStack.setWord regLA _ (by decide) rfl).setWord regLC _
      (by decide) rfl).stackDrop h0

theorem popPair : Sound W F d.popPair.2.2 ∧ Fits 16 d.popPair.1 ∧ Fits 16 d.popPair.2.1 := by
  by_cases h0 : d.reg regSP = 0
  · rw [Dsp.popPair, stackTop_of_eq h0]
    exact ⟨h, fits_zero, fits_zero⟩
  · rw [Dsp.popPair, stackTop_of_ne h0]
    exact ⟨h.useStack.stackDrop h0, fits_setWidth (fits_self le_rfl),
      fits_setWidth (fits_self le_rfl)⟩

end Sound

/-! ## Loops -/

theorem eaOk_congr (h : ∀ r < 0x28, d'.reg r = d.reg r) (ea : ℕ) : d'.EaOk ea ↔ d.EaOk ea := by
  unfold EaOk
  rw [h (DspCore.regM0 + ea % 8) (by simp only [DspCore.regM0]; omega),
    h (regN0 + ea % 8) (by simp only [regN0]; omega)]

/-- `dsp_do` up to the count: the enclosing loop and the address of the body are pushed. -/
def doEnter (d : Dsp) : Dsp :=
  let d := d.stackPush (d.reg regLA) (d.reg regLC)
  let d := d.setReg regLA (d.readMemoryP (d.pc + 1) &&& 0xffff)
  let d := { d with curInstLen := d.curInstLen + 1 }
  let d := d.pushPc
  d.setReg regSR (d.reg regSR ||| 0x8000)

theorem reg_doEnter (hr : r < 0x28) : d.doEnter.reg r = d.reg r := by
  have hp : ¬ IsPointer r := by
    simp only [IsPointer, regSP, regSSH, regSSL]
    omega
  have hsr : r ≠ regSR := by simp only [regSR]; omega
  have hla : r ≠ regLA := by simp only [regLA]; omega
  unfold doEnter
  rw [reg_setReg_of_ne _ hsr, pushPc, reg_stackPush_of_not hp]
  exact (reg_setReg_of_ne _ hla _).trans (reg_stackPush_of_not hp _ _)

theorem reg_limit (hr : r ≠ regSR) (limited : Bool) : (d.limit limited).reg r = d.reg r := by
  unfold limit
  split_ifs
  · exact reg_setReg_of_ne _ hr _
  · rfl

theorem reg_loopReg (d : Dsp) (inst : U32) : (d.loopReg inst).reg regLC =
    (if isAccu (field inst 8 6) then (d.pmReadAccu24 (field inst 8 6)).1 else d.reg
      (field inst 8 6)) &&& 0xffff := by
  unfold loopReg
  rw [setLc, reg_setReg_self]
  split_ifs
  · rw [reg_limit (by decide), setLc, reg_setReg_self]
  · rw [setLc, reg_setReg_self]

theorem reg_opcodesRep (d : Dsp) (inst : U32) :
    (d.opcodesRep inst).reg regLC = d.repCount inst := by
  unfold opcodesRep repCount
  generalize loopForm inst = form
  match form with
  | 0 => exact reg_setReg_self _ _ _
  | 2 => exact reg_setReg_self _ _ _
  | 4 => rfl
  | 6 => exact reg_loopReg d inst
  | 1 | 3 | 5 | _ + 7 => exact reg_setReg_self _ _ _

namespace Effect

variable {d₀ : Dsp}

theorem setLc (h : Effect T C d₀ d) (hT : T regLC) {v : U32}
    (hv : C → d₀.WithinWidths → Fits 16 v) :
    Effect T C d₀ (d.setLc v) := h.named (fun _ => hT) hv

theorem loopReg (h : Effect T C d₀ d) (hT : T regLC) (inst : U32) :
    Effect T C d₀ (d.loopReg inst) := by
  unfold Dsp.loopReg
  dsimp only
  split_ifs
  · exact h.accuInto _ _ _ (fun _ => hT) fun _ _ => fits_and_right (by decide)
  · unfold Dsp.setLc
    rw [setReg_setReg]
    exact h.setLc hT fun _ _ => fits_and_right (by decide)

theorem fits_immediate12 (inst : U32) : Fits 16 (immediate12 inst) := by
  have h8 := field_lt inst 8 8
  have h4 := field_lt inst 0 4
  have hsum : immediate12 inst = BitVec.ofNat 32 (field inst 8 8 + field inst 0 4 <<< 8) :=
    (BitVec.ofNat_add _ _).symm
  rw [hsum]
  refine fits_ofNat ?_
  omega

theorem opcodesDo (h : Effect T C d₀ d) (inst : U32) (hT : T regLC)
    (hok : C → loopForm inst = 2 → d.EaOk (field inst 8 6)) : Effect T C d₀ (d.opcodesDo inst) := by
  unfold Dsp.opcodesDo
  split
  · exact (h.readMemory _ _).setLc hT fun _ _ => fits_and_right (by decide)
  · exact ((h.calcEa _ fun hC => hok hC ‹_›).readMemory _ _).setLc hT fun _ _ =>
      fits_and_right (by decide)
  · exact h.congr (fun _ => rfl) rfl
  · exact h.loopReg hT inst
  · exact h.setLc hT fun _ _ => fits_immediate12 inst

theorem opcodesRep (h : Effect T C d₀ d) (hT : T regLC)
    (hok : C → loopForm inst = 2 → d.EaOk (field inst 8 6))
    (hcount : C → Fits 16 (d.repCount inst)) : Effect T C d₀ (d.opcodesRep inst) := by
  unfold repCount at hcount
  unfold Dsp.opcodesRep
  split
  · rename_i he
    simp only [he] at hcount
    exact (h.readMemory _ _).setLc hT fun hC _ => hcount hC
  · rename_i he
    simp only [he] at hcount
    exact ((h.calcEa _ fun hC => hok hC he).readMemory _ _).setLc hT fun hC _ => hcount hC
  · exact h.congr (fun _ => rfl) rfl
  · exact h.loopReg hT inst
  · exact h.setLc hT fun _ _ => fits_immediate12 inst

end Effect

namespace Sound

variable {W F : Prop}

/-! ## Instructions that use the stack -/

variable (h : Sound W F d)
include h

theorem part (e : Effect (fun _ => False) W d d') : Sound W F d' := h.effect e fun _ _ => id

omit h in
theorem sp_part (e : Effect (fun _ => False) W d d') : d'.reg regSP = d.reg regSP :=
  e.keep regSP (.inr le_rfl) id

theorem pushPc (hroom : F → (d.reg regSP).toNat < 14) : Sound W F d.pushPc :=
  h.stackPush _ _ hroom

theorem jump (newpc : U32) : Sound W F (d.jump newpc) := h.congr (fun _ => rfl) rfl

theorem bitJump (on : Bool) (hok : W → field inst 14 2 = 1 → d.EaOk (field inst 8 6))
    (hroom : F → (d.bitOperand inst).1.getLsbD (field inst 0 5) = on → (d.reg regSP).toNat < 14) :
    Sound W F (Dsp.bitJump on true d inst) := by
  have he := (Effect.refl (T := fun _ => False) d).bitOperand inst hok
  have hlen : Sound W F
    { (d.bitOperand inst).2.2 with curInstLen := (d.bitOperand inst).2.2.curInstLen + 1 } :=
    (h.part he).congr (fun _ => rfl) rfl
  unfold Dsp.bitJump
  simp only [if_true]
  split
  · rename_i hon
    refine (hlen.pushPc fun hF => ?_).jump _
    have := hroom hF hon
    rwa [← sp_part he] at this
  · exact hlen

theorem jscc (hok : W → field inst 16 8 = 0x0b → d.EaOk (field inst 8 6))
    (hroom : F → (d.jumpTarget inst 0x0b).2.2.calcCc (d.jumpTarget inst 0x0b).2.1 = true →
      (d.reg regSP).toNat < 14) : Sound W F (d.jscc inst) := by
  have he := (Effect.refl (T := fun _ => False) d).jumpTarget inst 0x0b hok
  unfold Dsp.jscc
  dsimp only
  split_ifs with hcc
  · refine ((h.part he).pushPc fun hF => ?_).jump _
    rw [sp_part he]
    exact hroom hF hcc
  · exact h.part he

theorem jsr (hok : W → field inst 12 4 ≠ 0 → d.EaOk (field inst 8 6))
    (hroom : F → d.interruptState ≠ .long → (d.reg regSP).toNat < 14) : Sound W F (d.jsr inst) := by
  have hcall : ∀ d' : Dsp, Effect (fun _ => False) W d d' →
      Sound W F (if d'.interruptState ≠
        .long then d'.pushPc else { d' with interruptState := .none }) := by
    intro d' he
    have hstate : d'.interruptState = d.interruptState := congrArg (·.2.2.2.1) he.background
    split_ifs with hl
    · refine (h.part he).pushPc fun hF => ?_
      rw [sp_part he]
      exact hroom hF (hstate ▸ hl)
    · exact (h.part he).congr (fun _ => rfl) rfl
  unfold Dsp.jsr
  by_cases h0 : field inst 12 4 = 0
  · rw [if_pos h0]
    exact (hcall d (Effect.refl d)).jump _
  · rw [if_neg h0]
    exact (hcall _ ((Effect.refl d).calcEa _ fun hW => hok hW h0)).jump _

theorem rti : Sound W F d.rti := by
  obtain ⟨hpop, -, hsr⟩ := h.popPair
  have hset : Sound W F (d.popPair.2.2.setReg regSR d.popPair.2.1) :=
    hpop.setReg (by decide) fun _ => hsr
  exact hset.jump _

theorem rts : Sound W F d.rts := h.popPair.1.jump _

theorem enddo : Sound W F d.enddo := h.popSr.popLoop

theorem doEnter (hroom : F → (d.reg regSP).toNat < 13) : Sound W F d.doEnter := by
  have hpush := h.stackPush (d.reg regLA) (d.reg regLC) fun hF => by have := hroom hF; omega
  have hsp : F → ((d.stackPush (d.reg regLA) (d.reg regLC)).reg regSP).toNat < 14 := by
    intro hF
    have hlt := hroom hF
    rw [reg_stackPush, if_pos (by decide), h.toNat_succ]
    · omega
    · intro h15
      rw [h15] at hlt
      exact absurd hlt (by decide)
  unfold Dsp.doEnter
  generalize d.stackPush (d.reg regLA) (d.reg regLC) = d1 at hpush hsp
  have hla : Sound W F (d1.setReg regLA (d1.readMemoryP (d1.pc + 1) &&& 0xffff)) :=
    hpush.setReg (by decide) fun _ => fits_and_right (by decide)
  have hlen : Sound W F { d1.setReg regLA (d1.readMemoryP (d1.pc + 1) &&& 0xffff) with
      curInstLen := d1.curInstLen + 1 } := hla.congr (fun _ => rfl) rfl
  have hpc := hlen.pushPc fun hF => hsp hF
  have hsr : W → Fits (width regSR) _ :=
    fun hW => fits_or (hpc.within hW regSR) (by decide : Fits 16 0x8000#32)
  exact hpc.setReg (by decide) hsr

theorem «do» (hok : W → loopForm inst = 2 → d.EaOk (field inst 8 6))
    (hroom : F → (d.reg regSP).toNat < 13) : Sound W F (d.do inst) := by
  have hea : W → loopForm inst = 2 → d.doEnter.EaOk (field inst 8 6) := fun hW h2 =>
    (eaOk_congr (fun _ => reg_doEnter) _).2 (hok hW h2)
  exact (h.doEnter hroom).effect ((Effect.refl d.doEnter).opcodesDo (T := (· = regLC)) inst rfl hea)
    (by rintro r (rfl | rfl | rfl) <;> decide)

theorem rep (hok : W → loopForm inst = 2 → d.EaOk (field inst 8 6))
    (hcount : W → Fits 16 ((d.setReg regLCSAVE (d.reg regLC)).repCount inst)) :
    Sound W F (d.rep inst) := by
  have hsave : Sound W F (d.setReg regLCSAVE (d.reg regLC)) :=
    h.setReg (by decide) fun hW => h.within hW regLC
  have hlc := (Effect.refl (T := (· = regLC)) (d.setReg regLCSAVE (d.reg regLC))).opcodesRep rfl
    (fun hW h2 => ?_) hcount
  · exact (hsave.effect hlc (by rintro r (rfl | rfl | rfl) <;> decide)).congr (fun _ => rfl) rfl
  · refine (eaOk_congr (fun r hr => reg_setReg_of_ne _ ?_ _) _).2 (hok hW h2)
    simp only [regLCSAVE]; omega

/-- **Instructions that use the stack or start a loop.** -/
theorem control {k : Handler} (hk : k.isControl) (hok : W → d.WidthOk inst k)
    (hroom : F → (d.reg regSP).toNat + d.pushes inst k ≤ 14) : Sound W F (d.call inst k) := by
  have heas : W → ∀ ea ∈ k.eas inst, d.EaOk ea := fun hW => (hok hW).eas
  cases k with
  | «do» =>
    refine h.do (fun hW h2 => heas hW _ (by simp [Handler.eas, h2])) fun hF => ?_
    have := hroom hF
    simp only [pushes] at this
    omega
  | enddo => exact h.enddo
  | rep =>
    exact h.rep (fun hW h2 => heas hW _ (by simp [Handler.eas, h2])) fun hW => ((hok hW).rep rfl).2
  | rti => exact h.rti
  | rts => exact h.rts
  | jscc =>
    refine h.jscc (fun hW hb => heas hW _ (by simp [Handler.eas, hb])) fun hF hcc => ?_
    have := hroom hF
    rw [pushes, if_pos hcc] at this
    omega
  | jsr =>
    refine h.jsr (fun hW h0 => heas hW _ (by simp [Handler.eas, h0])) fun hF hl => ?_
    have := hroom hF
    rw [pushes, if_neg hl] at this
    omega
  | jsclr =>
    refine h.bitJump false (fun hW h1 => heas hW _ (by simp [Handler.eas, h1])) fun hF hb => ?_
    have := hroom hF
    rw [pushes, if_pos hb] at this
    omega
  | jsset =>
    refine h.bitJump true (fun hW h1 => heas hW _ (by simp [Handler.eas, h1])) fun hF hb => ?_
    have := hroom hF
    rw [pushes, if_pos hb] at this
    omega
  | _ => cases hk

theorem call (k : Handler) (hT : ∀ r ∈ k.targets inst, ¬ IsPointer r)
    (hok : W → d.WidthOk inst k) (hmove : W → IsRegMove inst → d.MoveOk inst)
    (hroom : F → (d.reg regSP).toNat + d.pushes inst k ≤ 14) : Sound W F (d.call inst k) := by
  cases hk : k.isControl with
  | true => exact h.control hk hok hroom
  | false =>
    have he : Effect (· ∈ k.targets inst) W d (d.call inst k) :=
      (Effect.refl d).call hk (fun _ => id) (fun _ => hT) hok hmove
    exact h.effect he fun r hr hmem => hT r hmem hr

end Sound

/-! ## Program counter and interrupts -/

namespace Sound

variable {W F : Prop}

theorem updateRep (h : Sound W F d)
    (hrep : W → d.loopRep = true → d.pcOnRep = true → d.reg regLC ≠ 0) : Sound W F d.updateRep := by
  have hdec : Sound W F (d.setReg regLC ((d.reg regLC - 1) &&& 0xffff)) :=
    h.setReg (by decide) fun _ => fits_and_right (by decide)
  unfold Dsp.updateRep
  dsimp only
  split_ifs with hl hpc h0
  · -- the count 0 becomes 65536, which has 17 bits
    have hset : Sound W F (d.setReg regLC 0x010000) :=
      h.setReg (by decide) fun hW => absurd h0 (hrep hW hl hpc)
    exact hset.congr (fun _ => rfl) rfl
  · exact h.congr (fun _ => rfl) rfl
  · exact hdec.congr (fun _ => rfl) rfl
  · have hset := hdec.setReg (r := regLC) (by decide) fun hW => hdec.within hW regLCSAVE
    exact hset.congr (fun _ => rfl) rfl
  · exact h

theorem updateLoop (h : Sound W F d) : Sound W F d.updateLoop := by
  have hdec : Sound W F (d.setReg regLC ((d.reg regLC - 1) &&& 0xffff)) :=
    h.setReg (by decide) fun _ => fits_and_right (by decide)
  unfold Dsp.updateLoop
  dsimp only
  split_ifs
  · exact hdec.popSr.popLoop
  · refine ⟨hdec.ssh, hdec.ssl, hdec.le, hdec.within, fun hF => ⟨(hdec.shallow hF).1, ?_⟩⟩
    have hle := (hdec.shallow hF).1
    have hfault := (hdec.shallow hF).2
    dsimp only [Dsp.useStack]
    rw [hfault, hdec.ssh]
    simp only [Bool.false_or, decide_eq_false_iff_not, Bool.or_eq_false_iff]
    exact ⟨by omega, by decide⟩
  · exact h

theorem postexecuteUpdatePc (h : Sound W F d)
    (hrep : W → d.loopRep = true → d.pcOnRep = true → d.reg regLC ≠ 0) :
    Sound W F d.postexecuteUpdatePc := by
  have hadvance : Sound W F d.updateRep.advance := (h.updateRep hrep).congr (fun _ => rfl) rfl
  exact hadvance.updateLoop

end Sound

/-- The search for an interrupt changes no register, and finds a level of two bits or none; without
    one it changes nothing. -/
structure Searched (d : Dsp) (r : U32 × Dsp) : Prop where
  effect : ∀ {W : Prop}, Effect (fun _ => False) W d r.2
  level : r.1 ≠ 99 → Fits 2 r.1
  unchanged : r.1 = 99 → r.2 = d

namespace Searched

theorem none (d : Dsp) : Searched d (99, d) := ⟨.refl d, fun h => absurd rfl h, fun _ => rfl⟩

theorem raised {ipl : U32} (hr : ∀ r, d'.reg r = d.reg r) (hb : d'.background = d.background)
    (h : Fits 2 ipl) : Searched d (ipl, d') := by
  refine ⟨(Effect.refl d).congr hr hb, fun _ => h, fun h99 => ?_⟩
  have : ipl = 99 := h99
  rw [this] at h
  exact absurd h (by decide)

theorem ssiInterrupts (d : Dsp) : Searched d d.ssiInterrupts := by
  unfold Dsp.ssiInterrupts
  dsimp only
  split_ifs
  any_goals exact raised (fun _ => rfl) rfl (fits_and_right (by decide))
  exact none d

theorem hiInterrupts (d : Dsp) : Searched d d.hiInterrupts := by
  unfold Dsp.hiInterrupts DspCore.hiInterrupts
  split_ifs
  any_goals exact raised (fun _ => rfl) rfl (fits_and_right (by decide))
  exact none d

/-- One peripheral, and the other one if the first has no interrupt. -/
theorem orElse {f g : Dsp → U32 × Dsp} (hf : ∀ d, Searched d (f d)) (hg : ∀ d, Searched d (g d))
    (d : Dsp) : Searched d (if (f d).1 = 99 then g (f d).2 else f d) := by
  split_ifs with h99
  · have h := hg (f d).2
    rwa [(hf d).unchanged h99] at h ⊢
  · exact hf d

theorem periphInterrupts (d : Dsp) (ipl : U32) : Searched d (d.periphInterrupts ipl) := by
  have hhi : ∀ (c : Prop) [Decidable c] (d : Dsp),
      Searched d (if c then d.hiInterrupts else (99, d)) := by
    intro c _ d
    split_ifs
    · exact hiInterrupts d
    · exact none d
  have hssi : ∀ (c : Prop) [Decidable c] (d : Dsp),
      Searched d (if c then d.ssiInterrupts else (99, d)) := by
    intro c _ d
    split_ifs
    · exact ssiInterrupts d
    · exact none d
  unfold Dsp.periphInterrupts
  dsimp only
  split
  · exact orElse (hhi _) (hssi _) d
  · exact orElse (hssi _) (hhi _) d

theorem raiseInterrupt (d : Dsp) : Searched d d.raiseInterrupt := by
  unfold Dsp.raiseInterrupt
  dsimp only
  split_ifs
  · exact raised (fun _ => rfl) rfl (by decide)
  · exact raised (fun _ => rfl) rfl (by decide)
  · exact none d
  · exact periphInterrupts d _

end Searched

/-- An interrupt with a `jsr` in its vector is taken, as far as the code can tell. -/
def CallsVector (d : Dsp) : Prop :=
  d.loopRep = false ∧ d.interruptState ≠ .fast ∧ d.raiseInterrupt.1 ≠ 99 ∧
    (looksLikeJsr (d.raiseInterrupt.2.readMemoryP d.raiseInterrupt.2.vector) ∨
      looksLikeJsr (d.raiseInterrupt.2.readMemoryP (d.raiseInterrupt.2.vector + 1)))
deriving Decidable

namespace Sound

variable {W F : Prop}

theorem takeInterrupt (h : Sound W F d) {ipl : U32} (hipl : Fits 2 ipl)
    (hroom : F → looksLikeJsr (d.readMemoryP d.vector) ∨
      looksLikeJsr (d.readMemoryP (d.vector + 1)) →
      (d.reg regSP).toNat < 14) : Sound W F (d.takeInterrupt ipl) := by
  unfold Dsp.takeInterrupt
  dsimp only
  split_ifs with hj
  · have hlong : Sound W F { d with interruptState := .long } := h.congr (fun _ => rfl) rfl
    have hpush := hlong.stackPush (d.pc.setWidth 32) (d.reg regSR) fun hF => hroom hF hj
    have hsr : ∀ v : U32, Fits 16 (v &&& (0xffff - 0xaf00 : U32) ||| ipl <<< 8) := fun v =>
      fits_or (fits_and_right (by decide)) ((fits_shiftLeft hipl).mono (by decide))
    exact (hpush.setReg (r := regSR) (by decide) fun _ => hsr _).congr (fun _ => rfl) rfl
  · exact h.congr (fun _ => rfl) rfl

theorem endFast (h : Sound W F d) : Sound W F d.endFast := by
  unfold Dsp.endFast
  dsimp only
  split_ifs
  · exact h.congr (fun _ => rfl) rfl
  · exact h.congr (fun _ => rfl) rfl
  · exact h

theorem postexecuteInterrupts (h : Sound W F d)
    (hroom : F → d.CallsVector → (d.reg regSP).toNat < 14) : Sound W F d.postexecuteInterrupts := by
  have hr := Searched.raiseInterrupt d
  unfold Dsp.postexecuteInterrupts
  dsimp only
  split_ifs with hl hfast hne
  · exact h
  · exact h.endFast
  · refine (h.part hr.effect).takeInterrupt (hr.level hne) fun hF hj => ?_
    rw [sp_part (W := True) hr.effect]
    exact hroom hF ⟨by simpa using hl, hfast, hne, hj⟩
  · exact h.part hr.effect

end Sound

end Aranym.Dsp
