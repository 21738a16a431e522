/-
  What an instruction of the DSP can change, by its handler.

  `targets` are the control registers that an instruction names as destinations,
  `eas` the effective addresses that it evaluates, and `WidthOk` says when it
  keeps every register within its width.
-/
import Aranym.Dsp.Moves

namespace Aranym.Dsp

open Lib

namespace Handler

/-- The instructions that use the stack, or that start a loop. -/
def isControl : Handler → Bool
  | .do | .enddo | .jscc | .jsclr | .jsr | .jsset | .rep | .rti | .rts => true
  | _ => false

/-- The registers that an instruction gets by number and writes; `SR` if `LF` can change. -/
def targets (inst : U32) : Handler → List ℕ
  | .andi => if field inst 0 2 = 0 ∧ inst.getLsbD 15 = false then [regSR] else []
  | .ori => if field inst 0 2 = 0 ∧ inst.getLsbD 15 = true then [regSR] else []
  | .bchg | .bclr | .bset => bitTargets inst
  | .movec =>
    match movecForm inst with
    | 3 => [if inst.getLsbD 15 then field inst 0 6 else field inst 8 6]
    | 4 | 5 => if inst.getLsbD 15 then [field inst 0 6] else []
    | 6 | 7 => [field inst 0 6]
    | _ => []
  | .movem => if inst.getLsbD 15 then [field inst 0 6] else []
  | .movep => if field inst 6 2 = 0 ∧ inst.getLsbD 15 = false then [field inst 8 6] else []
  | _ => []

/-- The effective addresses that an instruction evaluates. -/
def eas (inst : U32) : Handler → List ℕ
  | .bchg | .bclr | .bset | .btst | .jclr | .jset | .jsclr | .jsset =>
    if field inst 14 2 = 1 then [field inst 8 6] else []
  | .do | .rep => if loopForm inst = 2 then [field inst 8 6] else []
  | .jcc | .jmp => if field inst 16 8 = 0x0a then [field inst 8 6] else []
  | .jscc => if field inst 16 8 = 0x0b then [field inst 8 6] else []
  | .jsr => if field inst 12 4 = 0 then [] else [field inst 8 6]
  | .lua => [field inst 8 5]
  | .movec => if movecForm inst = 5 then [field inst 8 6] else []
  | .movem => if inst.getLsbD 14 then [field inst 8 6] else []
  | .movep => if field inst 6 2 = 0 then [] else [field inst 8 6]
  | .movePm => pmEas inst
  | _ => []

end Handler

/-- The index registers of the stack. -/
def IsPointer (r : ℕ) : Prop := r = regSP ∨ r = regSSH ∨ r = regSSL
deriving Decidable

theorem byte_le_width {r : ℕ} (hr : r < 64) (hp : ¬ IsPointer r) : 8 ≤ width r := by
  revert r; decide

/-- The count of `rep`, in the state in which `LC` has been saved. -/
def repCount (d : Dsp) (inst : U32) : U32 :=
  let space := spaceOf (field inst 6 1)
  let numreg := field inst 8 6
  match loopForm inst with
  | 0 => (d.readMemory space numreg).1
  | 2 => ((d.calcEa numreg).2.2.readMemory space (d.calcEa numreg).1).1
  | 4 => d.reg regLC
  | 6 => (if isAccu numreg then (d.pmReadAccu24 numreg).1 else d.reg numreg) &&& 0xffff
  | _ => immediate12 inst

/-- When an instruction keeps every register within its width. -/
@[mk_iff]
structure WidthOk (d : Dsp) (inst : U32) (h : Handler) : Prop where
  /-- no bit-reversed update without a step -/
  eas : ∀ ea ∈ h.eas inst, d.EaOk ea
  /-- the register has the bit that is set -/
  bit : h = .bset ∨ h = .bchg → field inst 14 2 = 3 →
    field inst 0 5 < width (bitReg (field inst 8 6))
  /-- something is repeated, at most 65535 times -/
  rep : h = .rep → (d.setReg regLCSAVE (d.reg regLC)).repCount inst ≠ 0 ∧
    Fits 16 ((d.setReg regLCSAVE (d.reg regLC)).repCount inst)

instance (d : Dsp) (inst : U32) (h : Handler) : Decidable (d.WidthOk inst h) :=
  decidable_of_iff' _ (widthOk_iff d inst h)

variable {T : ℕ → Prop} {C : Prop} {d₀ d : Dsp} {inst : U32}

namespace Effect

variable (h : Effect T C d₀ d)
include h

theorem jump (newpc : U32) : Effect T C d₀ (d.jump newpc) :=
  h.congr (fun _ => rfl) rfl

theorem jumpTarget (inst : U32) (ea : ℕ)
    (hok : C → field inst 16 8 = ea → d.EaOk (field inst 8 6)) :
    Effect T C d₀ (d.jumpTarget inst ea).2.2 := by
  unfold Dsp.jumpTarget
  split_ifs with hea
  · exact h.calcEa _ fun hC => hok hC hea
  · exact h

theorem jcc (hok : C → field inst 16 8 = 0x0a → d.EaOk (field inst 8 6)) :
    Effect T C d₀ (d.jcc inst) := by
  have htarget := h.jumpTarget inst 0x0a hok
  unfold Dsp.jcc
  dsimp only
  split_ifs
  · exact htarget.jump _
  · exact htarget

theorem jmp (hok : C → field inst 16 8 = 0x0a → d.EaOk (field inst 8 6)) :
    Effect T C d₀ (d.jmp inst) := by
  unfold Dsp.jmp
  split
  · exact (h.calcEa _ fun hC => hok hC ‹_›).jump _
  all_goals exact h.jump _

theorem bitJump (on : Bool) (hok : C → field inst 14 2 = 1 → d.EaOk (field inst 8 6)) :
    Effect T C d₀ (Dsp.bitJump on false d inst) := by
  have hlen : Effect T C d₀
    { (d.bitOperand inst).2.2 with curInstLen := (d.bitOperand inst).2.2.curInstLen + 1 } :=
    (h.bitOperand inst hok).congr (fun _ => rfl) rfl
  unfold Dsp.bitJump
  simp only [Bool.false_eq_true, if_false]
  split
  · exact hlen.jump _
  · exact hlen

theorem movec (hok : C → movecForm inst = 5 → d.EaOk (field inst 8 6))
    (hT : ∀ r ∈ Handler.targets inst .movec, T r)
    (hp : C → ∀ r ∈ Handler.targets inst .movec, ¬ IsPointer r) : Effect T C d₀ (d.movec inst) := by
  -- an immediate byte fits into every other register
  have hbyte : ¬ IsPointer (field inst 0 6) →
    field inst 8 8 < 2 ^ width (field inst 0 6) := fun h =>
    lt_of_lt_of_le (field_lt inst 8 8)
      (Nat.pow_le_pow_right (by decide) (byte_le_width (field_lt inst 0 6) h))
  simp only [Handler.targets] at hT hp
  unfold Dsp.movec
  split
  · rename_i he
    simp only [he, List.mem_singleton, forall_eq] at hT
    refine h.movecReg inst (fun h15 _ => ?_) fun h15 _ => ?_
    · rwa [h15, if_pos rfl] at hT
    · rwa [h15, if_neg Bool.false_ne_true] at hT
  · rename_i he
    refine h.movecAa inst fun h15 _ => ?_
    simpa [he, h15] using hT
  · rename_i he
    refine h.movecEa inst (fun hC => hok hC he) fun h15 _ => ?_
    simpa [he, h15] using hT
  · rename_i he
    simp only [he, List.mem_singleton, forall_eq] at hT hp
    exact h.movecImm inst (fun _ => hT) fun hC => hbyte (hp hC)
  · rename_i he
    simp only [he, List.mem_singleton, forall_eq] at hT hp
    exact h.movecImm inst (fun _ => hT) fun hC => hbyte (hp hC)
  · exact h.congr (fun _ => rfl) rfl

theorem movep (hok : C → field inst 6 2 ≠ 0 → d.EaOk (field inst 8 6))
    (hT : field inst 6 2 = 0 → inst.getLsbD 15 = false → T (field inst 8 6)) :
    Effect T C d₀ (d.movep inst) := by
  unfold Dsp.movep
  split
  · rename_i he
    exact h.movep0 inst fun h15 _ => hT he h15
  · rename_i he
    exact h.movep1 inst fun hC => hok hC (by omega)
  · rename_i he _
    exact h.movep2 inst fun hC => hok hC he

theorem moves (hok : C → ∀ ea ∈ pmEas inst, d.EaOk ea)
    (hmove : C → IsRegMove inst → d.MoveOk inst) :
    Effect T C d₀ ((d.parmoveRead inst).1.parmoveWrite (d.parmoveRead inst).2) :=
  have hreads := h.parmoveRead inst hok hmove
  parmoveWrite _ hreads.effect hreads.ok

attribute [local simp] Handler.eas in
/-- **Instructions that leave the stack and the loops alone.** -/
theorem call {k : Handler} (hk : k.isControl = false) (hT : ∀ r ∈ k.targets inst, T r)
    (hp : C → ∀ r ∈ k.targets inst, ¬ IsPointer r) (hok : C → d.WidthOk inst k)
    (hmove : C → IsRegMove inst → d.MoveOk inst) : Effect T C d₀ (d.call inst k) := by
  have heas : C → ∀ ea ∈ k.eas inst, d.EaOk ea := fun hC => (hok hC).eas
  cases k with
  | «do» | enddo | jscc | jsclr | jsr | jsset | rep | rti | rts => cases hk
  | undefined => exact h.congr (fun _ => rfl) rfl
  | unmatched | illegal | nop | reset | stop | wait => exact h
  | andi => exact h.andi inst fun h0 h15 => hT _ (by rw [Handler.targets, if_pos ⟨h0, h15⟩]; simp)
  | ori => exact h.ori inst fun h0 h15 => hT _ (by rw [Handler.targets, if_pos ⟨h0, h15⟩]; simp)
  | bchg =>
    exact h.bchg inst (fun hC h1 => heas hC _ (by simp [h1])) hT fun hC => (hok hC).bit (.inr rfl)
  | bclr => exact h.bclr inst (fun hC h1 => heas hC _ (by simp [h1])) hT
  | bset =>
    exact h.bset inst (fun hC h1 => heas hC _ (by simp [h1])) hT fun hC => (hok hC).bit (.inl rfl)
  | btst => exact h.btst inst fun hC h1 => heas hC _ (by simp [h1])
  | div => exact h.div inst
  | jcc => exact h.jcc fun hC ha => heas hC _ (by simp [ha])
  | jmp => exact h.jmp fun hC ha => heas hC _ (by simp [ha])
  | jclr => exact h.bitJump false fun hC h1 => heas hC _ (by simp [h1])
  | jset => exact h.bitJump true fun hC h1 => heas hC _ (by simp [h1])
  | lua => exact h.lua inst fun hC => heas hC _ (by simp)
  | movec => exact h.movec (fun hC h5 => heas hC _ (by simp [h5])) hT hp
  | movem =>
    exact h.movem inst (fun hC h14 => heas hC _ (by simp [h14])) fun h15 _ =>
      hT _ (by simp [Handler.targets, h15])
  | movep =>
    exact h.movep (fun hC h0 => heas hC _ (by simp [h0])) fun h0 h15 =>
      hT _ (by rw [Handler.targets, if_pos ⟨h0, h15⟩]; simp)
  | norm => exact h.norm inst
  | swi => exact h.congr (fun _ => rfl) rfl
  | tcc => exact h.tcc inst
  | movePm => exact h.moves heas hmove

theorem parallel (inst : U32) (a : AluHandler) (hok : C → ∀ ea ∈ pmEas inst, d.EaOk ea)
    (hmove : C → IsRegMove inst → d.MoveOk inst) :
    Effect T C d₀ (((d.parmoveRead inst).1.callAlu inst a).parmoveWrite (d.parmoveRead inst).2) :=
  have hreads := h.parmoveRead inst hok hmove
  parmoveWrite _ (hreads.effect.callAlu inst a) hreads.ok

end Effect

end Aranym.Dsp
