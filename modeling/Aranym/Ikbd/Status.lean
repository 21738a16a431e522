/-
  The status register of the keyboard's ACIA and the input ring: the one step that
  can part `RXFULL` from the ring is a reset.
-/
import Aranym.Ikbd.Queue

namespace Aranym.Ikbd

open Lib

/-! ## Calls -/

/-- What can happen to the controller. -/
inductive Call where
  | sendKey (scancode : U8)
  | sendMouseMotion (mo : Motion)
  | sendJoystickAxis (numjoy : Fin 2) (numaxis : ℕ) (value : ℤ)
  | sendJoystickHat (numjoy : Fin 2) (value : U8)
  | sendJoystickButton (numjoy : Fin 2) (pressed : U8)
  | handleRead (offset : ℕ)
  | handleWrite (t : Tm) (offset : ℕ) (value : U8)
  /-- `IKBD::reset`, by the `RESET` instruction -/
  | reset
  /-- the interrupt controller goes on -/
  | mfp (mfp : Mfp)

/-- One call; the output is the byte of a read. -/
def step (k : Ikbd) : Call → Ikbd × U8
  | .sendKey scancode => (k.sendKey scancode, 0)
  | .sendMouseMotion mo => (k.sendMouseMotion mo, 0)
  | .sendJoystickAxis numjoy numaxis value => (k.sendJoystickAxis numjoy numaxis value, 0)
  | .sendJoystickHat numjoy value => (k.sendJoystickHat numjoy value, 0)
  | .sendJoystickButton numjoy pressed => (k.sendJoystickButton numjoy pressed, 0)
  | .handleRead offset => ((k.handleRead offset).2, (k.handleRead offset).1)
  | .handleWrite t offset value => (k.handleWrite t offset value, 0)
  | .reset => (k.reset, 0)
  | .mfp mfp => ({ k with mfp }, 0)

/-- The controller as its constructors leave it. -/
def created (k : Ikbd) : Ikbd := k.aciaReset.reset

/-- A byte is there. -/
def rxfull (k : Ikbd) : Bool := k.sr.getLsbD 0

/-- `RXFULL` tells whether there is a byte to read. -/
def Coherent (k : Ikbd) : Prop := k.rxfull = true ↔ k.inread ≠ k.inwrite
deriving Decidable

variable {k k' : Ikbd}

/-! ## Bytes -/

/-- The flag and the indices are the same. -/
structure SameStatus (k k' : Ikbd) : Prop where
  rxfull : k'.rxfull = k.rxfull
  inread : k'.inread = k.inread
  inwrite : k'.inwrite = k.inwrite

theorem SameStatus.coherent (h : SameStatus k k') (hk : k.Coherent) : k'.Coherent := by
  rw [Coherent, h.rxfull, h.inread, h.inwrite]; exact hk

theorem sameStatus_throwInterrupt : SameStatus k k.throwInterrupt := by
  unfold throwInterrupt
  split_ifs
  · exact ⟨rfl, rfl, rfl⟩
  · exact ⟨rfl, rfl, rfl⟩
  · exact ⟨by simp [rxfull], rfl, rfl⟩

theorem coherent_signalByte (h : k.inread ≠ k.inwrite) : k.signalByte.Coherent := by
  have hs := sameStatus_throwInterrupt (k := { k with sr := k.sr ||| 1 })
  refine hs.coherent (iff_of_true ?_ h)
  simp [rxfull]

theorem coherent_afterRead : k.afterRead.Coherent := by
  unfold afterRead
  split_ifs with he
  · exact iff_of_false (by simp [rxfull]) (not_not.2 he)
  · exact coherent_signalByte he

theorem coherent_readData (hk : k.Coherent) : k.readData.2.Coherent := by
  unfold readData
  split_ifs
  · exact coherent_afterRead
  · exact hk

theorem inread_dropPacket : k.dropPacket.inread ≠ k.inread := by
  have hpos := packetLength_pos (k.inbuffer k.inread)
  have hle := packetLength_le (k.inbuffer k.inread)
  have hN : inbufferlen = 8192 := rfl
  show (k.inread + packetLength (k.inbuffer k.inread)) % inbufferlen ≠ k.inread
  rw [hN]; omega

theorem coherent_send (v : U8) : (k.send v).Coherent := by
  refine coherent_signalByte ?_
  by_cases he : (k.putByte v).inread = (k.putByte v).inwrite
  · rw [if_pos he]
    exact fun h => inread_dropPacket (h.trans he.symm)
  · rw [if_neg he]; exact he

theorem coherent_sendAll : ∀ (bs : List U8) {k : Ikbd}, (bs = [] → k.Coherent) →
    (k.sendAll bs).Coherent
  | [], _, h => h rfl
  | b :: bs, k, _ => coherent_sendAll bs fun _ => coherent_send (k := k) b

/-! ## Events and commands -/

theorem coherent_sendMotion :
    ∀ (n : ℕ) {k : Ikbd} (mo : Motion), k.Coherent → (sendMotion n k mo).Coherent
  | 0, _, _, h => h
  | n + 1, k, mo, _ => by
    have hsent : ((k.mousePacket mo).1.sendAll (k.mousePacket mo).2.1).Coherent :=
      coherent_sendAll _ fun hnil => by cases hnil
    rw [sendMotion]
    split_ifs
    · exact coherent_sendMotion n _ hsent
    · exact hsent

theorem coherent_sendMouseMotion (hk : k.Coherent) (mo : Motion) :
    (k.sendMouseMotion mo).Coherent := by
  unfold sendMouseMotion
  split_ifs
  · exact coherent_sendMotion _ mo hk
  · exact hk

theorem coherent_joystick (hk : k.Coherent) (numjoy : Fin 2) (f : U8 → U8) :
    ((k.joystickEvent numjoy f).1.sendAll (k.joystickEvent numjoy f).2).Coherent := by
  refine coherent_sendAll _ fun _ => ?_
  have hs : SameStatus k (k.joystickEvent numjoy f).1 := by
    unfold joystickEvent joystickPacket
    split_ifs <;> exact ⟨rfl, rfl, rfl⟩
  exact hs.coherent hk

/-- A command sends a byte, or leaves the flag and the ring as they are. -/
theorem command_cases (t : Tm) (value : U8) :
    (k.command t value).2 ≠ [] ∨ SameStatus k (k.command t value).1 := by
  unfold command
  dsimp only
  split
  · unfold command1 done
    split <;> exact .inr ⟨rfl, rfl, rfl⟩
  · unfold command2 done
    split
    · exact .inr ⟨rfl, rfl, rfl⟩
    · exact .inr ⟨rfl, rfl, rfl⟩
    · split_ifs
      · exact .inl (List.cons_ne_nil _ _)
      · exact .inr ⟨rfl, rfl, rfl⟩
    · exact .inr ⟨rfl, rfl, rfl⟩
  · unfold command3 done; split <;> exact .inr ⟨rfl, rfl, rfl⟩
  · unfold command4 done; split <;> exact .inr ⟨rfl, rfl, rfl⟩
  · unfold command5 done; split <;> exact .inr ⟨rfl, rfl, rfl⟩
  · unfold command6 done; split <;> exact .inr ⟨rfl, rfl, rfl⟩
  · exact .inr ⟨rfl, rfl, rfl⟩

theorem coherent_writeData (hk : k.Coherent) (t : Tm) (value : U8) :
    (k.writeData t value).Coherent := by
  refine coherent_sendAll _ fun hnil => ?_
  rcases command_cases t value with hne | hs
  · exact absurd hnil hne
  · exact hs.coherent hk

/-! ## Runs -/

/-- `ACIA::reset` is asked for through the control register. -/
def IsMasterReset : Call → Prop
  | .handleWrite _ 0 value => value &&& 3 = 3
  | _ => False

instance : ∀ c, Decidable (IsMasterReset c)
  | .handleWrite _ 0 value => inferInstanceAs (Decidable (value &&& 3 = 3))
  | .handleWrite _ (_ + 1) _ => .isFalse not_false
  | .sendKey _ | .sendMouseMotion _ | .sendJoystickAxis _ _ _ | .sendJoystickHat _ _
  | .sendJoystickButton _ _ | .handleRead _ | .reset | .mfp _ => .isFalse not_false

/-- A reset of the controller or of the ACIA finds the ring empty. -/
def ResetsEmpty (k : Ikbd) (c : Call) : Prop := c = .reset ∨ IsMasterReset c → k.inread = k.inwrite

theorem coherent_reset_iff (hk : k.Coherent) : k.reset.Coherent ↔ k.inread = k.inwrite := by
  have hr : k.reset.rxfull = k.rxfull := rfl
  have hempty : ¬ k.reset.inread ≠ k.reset.inwrite := not_not.2 rfl
  rw [Coherent, hr, iff_false_right hempty]
  exact (not_congr hk).trans not_not

theorem coherent_aciaReset_iff : k.aciaReset.Coherent ↔ k.inread = k.inwrite := by
  have hr : k.aciaReset.rxfull = false := by simp [rxfull, aciaReset]
  rw [Coherent, hr, iff_false_left Bool.false_ne_true]; exact not_not

theorem coherent_created : k.created.Coherent :=
  iff_of_false (by simp [rxfull, created, aciaReset, reset]) (not_not.2 rfl)

attribute [local simp] IsMasterReset in
/-- **What a call does to the status.** -/
theorem coherent_step (hk : k.Coherent) (c : Call) : (step k c).1.Coherent ↔ k.ResetsEmpty c := by
  have quiet : ∀ {k' : Ikbd} {c : Call}, k'.Coherent → ¬ (c = .reset ∨ IsMasterReset c) →
      (k'.Coherent ↔ k.ResetsEmpty c) := fun h hn => iff_of_true h fun hc => absurd hc hn
  cases c with
  | sendKey scancode => exact quiet (coherent_sendAll _ nofun) (by simp)
  | sendMouseMotion mo => exact quiet (coherent_sendMouseMotion hk mo) (by simp)
  | sendJoystickAxis numjoy numaxis value =>
    exact quiet (coherent_joystick hk numjoy _) (by simp)
  | sendJoystickHat numjoy value => exact quiet (coherent_joystick hk numjoy _) (by simp)
  | sendJoystickButton numjoy pressed =>
    exact quiet (coherent_joystick hk numjoy _) (by simp)
  | mfp mfp => exact quiet (SameStatus.coherent ⟨rfl, rfl, rfl⟩ hk) (by simp)
  | reset => exact (coherent_reset_iff hk).trans ⟨fun h _ => h, fun h => h (.inl rfl)⟩
  | handleRead offset =>
    refine quiet ?_ (by simp)
    show (k.handleRead offset).2.Coherent
    unfold handleRead
    split
    · exact hk
    · exact coherent_readData hk
    · exact hk
  | handleWrite t offset value =>
    show (k.handleWrite t offset value).Coherent ↔ _
    match offset with
    | 0 =>
      rw [handleWrite]
      split_ifs with hv
      · exact coherent_aciaReset_iff.trans ⟨fun h _ => h, fun h => h (.inr hv)⟩
      · exact quiet (SameStatus.coherent ⟨rfl, rfl, rfl⟩ hk) (by simpa using hv)
    | 1 => exact quiet hk (by simp)
    | 2 => exact quiet (coherent_writeData hk t value) (by simp)
    | n + 3 => exact quiet hk (by simp)

/-- **Coherence of the status.**  `RXFULL` tells whether there is a byte to read in every state of a
    run, exactly if every reset of the run finds the ring empty. -/
theorem status_coherent_iff (k : Ikbd) (cs : List Call) :
    (∀ n, (run step k.created (cs.take n)).Coherent) ↔ Along step ResetsEmpty k.created cs := by
  have hstep : ∀ (k : Ikbd) (c : Call), k.Coherent → ((step k c).1.Coherent ↔ k.ResetsEmpty c) :=
    fun _ c h => coherent_step h c
  exact forall_take_iff_along hstep cs k.created coherent_created

/-- A reset with a byte in the ring leaves `RXFULL` set; a master reset clears it. -/
theorem reset_parts_status : ¬ (run step (created default) [.sendKey 0x1e, .reset]).Coherent ∧
    ¬ (run step (created default) [.sendKey 0x1e,
      .handleWrite ⟨0, 0, 0, 0, 0, 0⟩ 0 3]).Coherent := by
  decide +kernel

end Aranym.Ikbd
