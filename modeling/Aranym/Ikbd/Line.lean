/-
  The keyboard controller with what goes through it.

  A `Line` is a controller together with the packets it was asked to send, the bytes
  of the current one that are still to come, and the bytes the CPU has read.  It is a
  machine whose steps are the calls of `send`, so that it can be looked at, and read,
  in the middle of a packet.
-/
import Aranym.Ikbd.Queue

namespace Aranym.Ikbd

open Lib List

/-! ## Lines -/

/-- The line to the guest. -/
structure Line where
  ikbd : Ikbd
  /-- bytes of the current packet that are still to be sent -/
  left : List U8
  /-- a mouse motion whose loop is not finished -/
  motion : Option Motion
  /-- the packets sent, the last one possibly not to its end; a packet that was taken back is
      gone -/
  sent : List (List U8)
  /-- the bytes read -/
  delivered : List U8

/-- Calls, and the steps they are made of. -/
inductive Op where
  | key (scancode : U8)
  | mouse (mo : Motion)
  | joystickAxis (numjoy : Fin 2) (numaxis : ℕ) (value : ℤ)
  | joystickHat (numjoy : Fin 2) (value : U8)
  | joystickButton (numjoy : Fin 2) (pressed : U8)
  | writeData (t : Tm) (value : U8)
  /-- the next call of `send`, or the next packet of a motion -/
  | tick
  | read

variable (k : Ikbd) (L : Line)

namespace Line

/-- Start sending a packet, if there is one to send. -/
def begin (r : Ikbd × List U8) : Line :=
  { L with ikbd := r.1, left := r.2, sent := if r.2 = [] then L.sent else L.sent ++ [r.2] }

/-- The next packet of a motion. -/
def nextPacket (mo : Motion) : Line :=
  let r := L.ikbd.mousePacket mo
  { L with
    ikbd := r.1, left := r.2.1
    motion := if r.2.2.relx ≠ 0 ∨ r.2.2.rely ≠ 0 then some r.2.2 else none
    -- the write index tells whether the last packet was taken back
    sent := (if r.1.inwrite = L.ikbd.inwrite then L.sent else L.sent.dropLast) ++ [r.2.1] }

/-- A byte is sent. -/
def tick : Line :=
  match L.left with
  | b :: rest => { L with ikbd := L.ikbd.send b, left := rest }
  | [] => match L.motion with
    | some mo => L.nextPacket mo
    | none => L

/-- The guest reads. -/
def read : Line :=
  { L with ikbd := L.ikbd.readData.2
           delivered := if L.ikbd.inread ≠ L.ikbd.inwrite then L.delivered ++ [L.ikbd.readData.1]
             else L.delivered }

/-- One of these. -/
def step : Op → Line × Unit
  | .key scancode => (L.begin ({ L.ikbd with intype := .keyboard }, [scancode]), ())
  | .mouse mo => ({ L with motion := if L.ikbd.acceptsMotion mo then some mo else none }, ())
  | .joystickAxis numjoy numaxis value =>
    (L.begin (L.ikbd.joystickEvent numjoy (axisState · numaxis value)), ())
  | .joystickHat numjoy value => (L.begin (L.ikbd.joystickEvent numjoy (hatState · value)), ())
  | .joystickButton numjoy pressed =>
    (L.begin (L.ikbd.joystickEvent numjoy (buttonState · pressed)), ())
  | .writeData t value => (L.begin (L.ikbd.command t value), ())
  | .tick => (L.tick, ())
  | .read => (L.read, ())

/-- What a read does: nothing, or the first unread byte is delivered. -/
theorem read_cases {L : Line} (hr : InRing L.ikbd) :
    L.read = L ∨ ∃ b, L.ikbd.unread = b :: L.ikbd.readData.2.unread ∧ InRing L.ikbd.readData.2 ∧
      L.ikbd.readData.2.intype = L.ikbd.intype ∧
      L.read = { L with ikbd := L.ikbd.readData.2, delivered := L.delivered ++ [b] } := by
  rcases readData_cases hr with ⟨hnil, hread⟩ | ⟨b, rest, k', hu, hread, rfl, hr', hty⟩
  · have he := (unread_eq_nil_iff hr).1 hnil
    refine .inl ?_
    rw [read, hread, if_neg (not_not.2 he)]
  · have hne : L.ikbd.inread ≠ L.ikbd.inwrite := fun he => by
      rw [(unread_eq_nil_iff hr).2 he] at hu; cases hu
    refine .inr ⟨b, ?_⟩
    rw [read, hread, if_pos hne]
    exact ⟨hu, hr', hty, rfl⟩

/-- A line after a reset of the controller. -/
def start : Line := ⟨k.reset, [], none, [], []⟩

/-! ## Calls -/

/-- The function of the source that an operation calls. -/
def call : Op → Ikbd
  | .key scancode => k.sendKey scancode
  | .mouse mo => k.sendMouseMotion mo
  | .joystickAxis numjoy numaxis value => k.sendJoystickAxis numjoy numaxis value
  | .joystickHat numjoy value => k.sendJoystickHat numjoy value
  | .joystickButton numjoy pressed => k.sendJoystickButton numjoy pressed
  | .writeData t value => k.writeData t value
  | .tick => k
  | .read => k.readData.2

/-- No call is in progress. -/
def Idle : Prop := L.left = [] ∧ L.motion = none
deriving Decidable

theorem run_ticks : ∀ (bs : List U8) (L : Line), L.left = bs →
    run step L (replicate bs.length .tick) = { L with ikbd := L.ikbd.sendAll bs, left := [] }
  | [], L, h => by
    obtain ⟨k, l, m, s, d⟩ := L
    obtain rfl : l = [] := h
    rfl
  | b :: bs, L, h => by
    have htick : L.tick = { L with ikbd := L.ikbd.send b, left := bs } := by
      rw [tick, h]
    rw [length_cons, replicate_succ, run, step, htick, run_ticks bs _ rfl]; rfl

theorem run_begin (hm : L.motion = none) (r : Ikbd × List U8) :
    (run step (L.begin r) (replicate r.2.length .tick)).Idle ∧
      (run step (L.begin r) (replicate r.2.length .tick)).ikbd = r.1.sendAll r.2 := by
  rw [run_ticks r.2 (L.begin r) rfl]; exact ⟨⟨rfl, hm⟩, rfl⟩

theorem natAbs_sub_moveBy (slow : Bool) (rel : ℤ) :
    (rel - moveBy slow rel).natAbs ≤ rel.natAbs - 1 := by
  unfold moveBy mouseDeltaMax
  rcases abs_cases rel with ⟨h, -⟩ | ⟨h, -⟩ <;> rw [h] <;> split_ifs <;> omega

/-- The steps of a motion, which the bound on the loop never cuts short. -/
theorem run_motion : ∀ (n : ℕ) (L : Line) (mo : Motion), L.left = [] → L.motion = some mo →
    mo.relx.natAbs + mo.rely.natAbs < n → ∃ i, (run step L (List.replicate i .tick)).Idle ∧
      (run step L (List.replicate i .tick)).ikbd = sendMotion n L.ikbd mo
  | 0, _, _, _, _, h => by omega
  | n + 1, L, mo, hl, hm, h => by
    have htick : L.tick = L.nextPacket mo := by rw [tick, hl, hm]
    have hrest : (L.ikbd.mousePacket mo).2.2 = { mo with
        relx := mo.relx - moveBy mo.slow mo.relx, rely := mo.rely - moveBy mo.slow mo.rely } := rfl
    have hx := natAbs_sub_moveBy mo.slow mo.relx
    have hy := natAbs_sub_moveBy mo.slow mo.rely
    have hsend := run_ticks _ (L.nextPacket mo) rfl
    rw [sendMotion]
    by_cases hz : (L.ikbd.mousePacket mo).2.2.relx ≠ 0 ∨ (L.ikbd.mousePacket mo).2.2.rely ≠ 0
    · rw [if_pos hz]
      obtain ⟨i, hi, hk⟩ := run_motion n
        { L.nextPacket mo with
          ikbd := (L.nextPacket mo).ikbd.sendAll (L.nextPacket mo).left, left := [] }
        (L.ikbd.mousePacket mo).2.2 rfl (if_pos hz)
          (by rw [hrest] at hz ⊢; dsimp only at hz ⊢; omega)
      refine ⟨(L.nextPacket mo).left.length + i + 1, ?_⟩
      rw [List.replicate_succ, run, step, htick, ← List.replicate_append_replicate,
        run_append, hsend]
      exact ⟨hi, hk⟩
    · rw [if_neg hz]
      refine ⟨(L.nextPacket mo).left.length + 1, ?_⟩
      rw [List.replicate_succ, run, step, htick, hsend]
      exact ⟨⟨rfl, if_neg hz⟩, rfl⟩

/-- **The steps of a call put together are the call.** -/
theorem call_returns (hi : L.Idle) (op : Op) :
    ∃ n, (run step L (op :: List.replicate n .tick)).Idle ∧
      (run step L (op :: List.replicate n .tick)).ikbd = call L.ikbd op := by
  cases op with
  | key scancode => exact ⟨1, run_begin L hi.2 ({ L.ikbd with intype := .keyboard }, [scancode])⟩
  | joystickAxis numjoy numaxis value =>
    exact ⟨_, run_begin L hi.2 (L.ikbd.joystickEvent numjoy (axisState · numaxis value))⟩
  | joystickHat numjoy value =>
    exact ⟨_, run_begin L hi.2 (L.ikbd.joystickEvent numjoy (hatState · value))⟩
  | joystickButton numjoy pressed =>
    exact ⟨_, run_begin L hi.2 (L.ikbd.joystickEvent numjoy (buttonState · pressed))⟩
  | writeData t value => exact ⟨_, run_begin L hi.2 (L.ikbd.command t value)⟩
  | tick =>
    refine ⟨0, ?_⟩
    have htick : L.tick = L := by rw [tick, hi.1, hi.2]
    show L.tick.Idle ∧ L.tick.ikbd = _
    rw [htick]; exact ⟨hi, rfl⟩
  | read => exact ⟨0, hi, rfl⟩
  | mouse mo =>
    by_cases ha : L.ikbd.acceptsMotion mo = true
    · obtain ⟨i, h1, h2⟩ := run_motion (mo.relx.natAbs + mo.rely.natAbs + 1)
        { L with motion := some mo } mo hi.1 rfl (by omega)
      refine ⟨i, ?_⟩
      rw [run, step, call, sendMouseMotion, if_pos ha, if_pos ha]
      exact ⟨h1, h2⟩
    · refine ⟨0, ?_⟩
      rw [run, step, call, sendMouseMotion, if_neg ha, if_neg ha]
      exact ⟨⟨hi.1, rfl⟩, rfl⟩

/-- Calls one after the other, each with the steps that finish it. -/
def oneByOne (ops : List Op) (ns : List ℕ) : List Op :=
  (ops.zip ns).flatMap fun c => c.1 :: replicate c.2 .tick

/-- Every sequence of calls is among the runs of a line. -/
theorem calls_return : ∀ (ops : List Op) {L : Line}, L.Idle → ∃ ns, ns.length = ops.length ∧
    (run step L (oneByOne ops ns)).Idle ∧
    (run step L (oneByOne ops ns)).ikbd = ops.foldl call L.ikbd
  | [], _, hi => ⟨[], rfl, hi, rfl⟩
  | op :: ops, _, hi => by
    obtain ⟨n, hidle, hcall⟩ := call_returns _ hi op
    obtain ⟨ns, hlen, hidle', hcalls⟩ := calls_return ops hidle
    refine ⟨n :: ns, congrArg (· + 1) hlen, ?_⟩
    rw [oneByOne, zip_cons_cons, flatMap_cons, run_append, foldl_cons, ← hcall]
    exact ⟨hidle', hcalls⟩

theorem key_and_read_return : ∃ ns, ns.length = 2 ∧
    (run step ⟨default, [], none, [], []⟩ (oneByOne [.key 0x1e, .read] ns)).ikbd =
      ((default : Ikbd).sendKey 0x1e).readData.2 := by
  obtain ⟨ns, hlen, -, hcalls⟩ :=
    calls_return [.key 0x1e, .read] (L := ⟨default, [], none, [], []⟩) ⟨rfl, rfl⟩
  exact ⟨ns, hlen, hcalls⟩

end Line

end Aranym.Ikbd
