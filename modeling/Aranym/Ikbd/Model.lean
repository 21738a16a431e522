/-
  The keyboard controller (`ikbd.cpp`) behind its ACIA (`acia.cpp`).

  The class `IKBD` is the record `Ikbd`; the MFP it raises interrupts through is
  part of it.  Fields that are only ever written (`mouserel_enabled`, the absolute
  mouse position) are left out, and so are the debug outputs.
-/
import Aranym.Mfp.Model

namespace Aranym

/-- `ikbd_packet_t`: the latest type of packet in the buffer. -/
inductive IkbdPacket where
  | unknown | keyboard | mouse | joystick
  deriving DecidableEq, Repr, Inhabited

/-- The fields of `struct tm` that the clock command reads, as `gmtime` and `localtime` fill
    them. -/
structure Tm where
  year : ℕ
  mon : Fin 12
  mday : Fin 32
  hour : Fin 24
  min : Fin 60
  sec : Fin 61

/-- The keyboard processor and its ACIA. -/
structure Ikbd where
  sr : U8
  cr : U8
  rxdr : U8
  txdr : U8
  mouseEnabled : Bool
  yaxisReversed : Bool
  joyEnabled : Fin 2 → Bool
  joyState : Fin 2 → U8
  outbuffer : ℕ → U8
  outwrite : ℕ
  inbuffer : ℕ → U8
  inwrite : ℕ
  inread : ℕ
  intype : IkbdPacket
  mfp : Mfp
  deriving Inhabited

namespace Ikbd

variable (k : Ikbd) (numjoy : Fin 2) (state : U8) (t : Tm) (value : U8)

/-- `DEFAULT_INBUFFERLEN`. -/
def inbufferlen : ℕ := 8192

/-- The largest motion of a packet. -/
def mouseDeltaMax : ℤ := 63

/-- An axis beyond it is pushed. -/
def joystickThreshold : ℤ := 16384

/-- The power-up state. -/
def reset : Ikbd :=
  { k with
    inread := 0, inwrite := 0, outwrite := 0, intype := .unknown
    mouseEnabled := true, yaxisReversed := false
    joyEnabled := fun j => j = 1, joyState := fun _ => 0 }

/-- The ACIA's registers. -/
def aciaReset : Ikbd := { k with cr := 0, rxdr := 0, txdr := 0, sr := 2 }

/-! ## The input ring -/

/-- Requests the ACIA's interrupt. -/
def throwInterrupt : Ikbd :=
  -- the MFP's `IERB` and the ACIA's own enable bit
  if (k.mfp.handleRead 0 0xfffa09).1 &&& 0x40 = 0 then k
  else if k.cr &&& 0x80 = 0 then k
  else { k with sr := k.sr ||| 0x80
                mfp := (k.mfp.setGPIPbit 0x10 0x10).setGPIPbit 0x10 0 }

/-- There is a byte to read: `RXFULL` is set and the interrupt requested. -/
def signalByte : Ikbd := { k with sr := k.sr ||| 1 }.throwInterrupt

/-- The end of `ReadData`: the interrupt is taken back, or requested again for the next byte. -/
def afterRead : Ikbd :=
  if k.inread = k.inwrite then { k with mfp := k.mfp.setGPIPbit 0x10 0x10, sr := k.sr &&& 0x7e }
  else k.signalByte

/-- `ReadData`: the byte read (the last one again if there is none) and the state after it. -/
def readData : U8 × Ikbd :=
  if k.inread ≠ k.inwrite then
    let k :=
      { k with rxdr := k.inbuffer k.inread, inread := (k.inread + 1) % inbufferlen }.afterRead
    (k.rxdr, k)
  else (k.rxdr, k)

/-- The length of the packet with header `b`, as `send` tells it. -/
def packetLength (b : U8) : ℕ :=
  match b.toNat with
  | 0xf6 => 8
  | 0xf7 => 6
  | 0xf8 | 0xf9 | 0xfa | 0xfb => 3
  | 0xfc => 7
  | 0xfe | 0xff => 2
  | _ => 1

/-- A byte is written, and the write index moves on. -/
def putByte : Ikbd :=
  { k with inbuffer := Function.update k.inbuffer k.inwrite value
           inwrite := (k.inwrite + 1) % inbufferlen }

/-- The packet at the read index is removed. -/
def dropPacket : Ikbd :=
  { k with inread := (k.inread + packetLength (k.inbuffer k.inread)) % inbufferlen }

/-- `send`.  If the ring is full now, the packet at the read index is removed. -/
def send : Ikbd :=
  let k := k.putByte value
  (if k.inread = k.inwrite then k.dropPacket else k).signalByte

/-- Consecutive calls of `send`. -/
def sendAll (bytes : List U8) : Ikbd := bytes.foldl send k

/-! ## Events of the host -/

/-- A scan code. -/
def sendKey (scancode : U8) : Ikbd :=
  sendAll { k with intype := .keyboard } [scancode]

/-- The arguments of `SendMouseMotion`, and what its loop has left of them. -/
structure Motion where
  relx : ℤ
  rely : ℤ
  buttons : U32
  slow : Bool
  deriving DecidableEq

variable (mo : Motion)

/-- `0xf8 | (buttons & 3)` -/
def mouseHeader (buttons : U32) : U8 := 0xf8 ||| (buttons &&& 3).setWidth 8

/-- One step of the motion in one direction. -/
def moveBy (slow : Bool) (rel : ℤ) : ℤ :=
  if slow then (if rel > 0 then 1 else if rel < 0 then -1 else 0)
  else if |rel| > mouseDeltaMax then (if rel > 0 then mouseDeltaMax else -mouseDeltaMax)
  else rel

/-- `MergeMousePacket`: if the motion fits into the last packet, and the packet is not being read,
    the packet is taken back and its motion (read as unsigned bytes) is added. -/
def mergeMousePacket (relx rely : ℤ) (buttons : U32) : Ikbd × ℤ × ℤ :=
  if k.intype ≠ .mouse then (k, relx, rely)
  else if k.inread = k.inwrite then (k, relx, rely)
  else
    let mouseInwrite := (k.inwrite + inbufferlen - 3) % inbufferlen
    if k.inread = mouseInwrite ∨ k.inread = (mouseInwrite + 1) % inbufferlen ∨
        k.inread = (mouseInwrite + 2) % inbufferlen then (k, relx, rely)
    else if k.inbuffer mouseInwrite ≤ 0xf8 ∧ k.inbuffer mouseInwrite ≥ 0xfb then (k, relx, rely)
    else if k.inbuffer mouseInwrite ≠ mouseHeader buttons then (k, relx, rely)
    else
      let distx := relx + (k.inbuffer ((mouseInwrite + 1) % inbufferlen)).toNat
      let disty := rely + (k.inbuffer ((mouseInwrite + 2) % inbufferlen)).toNat
      if |distx| > mouseDeltaMax then (k, relx, rely)
      else if |disty| > mouseDeltaMax then (k, relx, rely)
      else ({ k with inwrite := mouseInwrite }, distx, disty)

/-- The body of the loop of `SendMouseMotion` up to its calls of `send`: the state, the bytes to
    send and the motion that is left. -/
def mousePacket : Ikbd × List U8 × Motion :=
  let movex := moveBy mo.slow mo.relx
  let movey := moveBy mo.slow mo.rely
  let rest := { mo with relx := mo.relx - movex, rely := mo.rely - movey }
  let r := if mo.slow then (k, movex, movey) else k.mergeMousePacket movex movey mo.buttons
  ({ r.1 with intype := .mouse },
    [mouseHeader mo.buttons, BitVec.ofInt 8 r.2.1,
      BitVec.ofInt 8 (if k.yaxisReversed then -r.2.2 else r.2.2)], rest)

/-- The loop of `SendMouseMotion`, at most `n` times. -/
def sendMotion : ℕ → Ikbd → Motion → Ikbd
  | 0, k, _ => k
  | n + 1, k, mo =>
    let r := k.mousePacket mo
    let k := r.1.sendAll r.2.1
    if r.2.2.relx ≠ 0 ∨ r.2.2.rely ≠ 0 then sendMotion n k r.2.2 else k

/-- `SendMouseMotion` starts its loop. -/
def acceptsMotion : Bool :=
  k.mouseEnabled && (mo.slow || !(|mo.relx| > 2048 || |mo.rely| > 2048))

/-- Motion in packets. -/
def sendMouseMotion : Ikbd :=
  if k.acceptsMotion mo then sendMotion (mo.relx.natAbs + mo.rely.natAbs + 1) k mo else k

/-- The end of the three joystick functions: a packet is sent if the state is new. -/
def joystickPacket : Ikbd × List U8 :=
  if k.joyState numjoy ≠ state then
    ({ k with joyState := Function.update k.joyState numjoy state, intype := .joystick },
      [0xfe ||| BitVec.ofNat 8 numjoy, state])
  else (k, [])

/-- The state of a joystick when an axis has moved; axis 0 is `LEFT` and `RIGHT`, axis 1 `UP` and
    `DOWN`. -/
def axisState (numaxis : ℕ) (value : ℤ) : U8 :=
  let turn (low high : U8) : U8 :=
    let state := state &&& ~~~(low ||| high)
    let state := if value < -joystickThreshold then state ||| low else state
    if value > joystickThreshold then state ||| high else state
  match numaxis with
  | 0 => turn 0x04 0x08
  | 1 => turn 0x01 0x02
  | _ => state

/-- The state of a joystick when its hat has moved; the button is kept. -/
def hatState : U8 :=
  let state := state &&& 0x80
  let state := if value &&& 8 ≠ 0 then state ||| 0x04 else state
  let state := if value &&& 2 ≠ 0 then state ||| 0x08 else state
  let state := if value &&& 1 ≠ 0 then state ||| 0x01 else state
  if value &&& 4 ≠ 0 then state ||| 0x02 else state

/-- The fire button. -/
def buttonState (pressed : U8) : U8 :=
  (state &&& 0x7f) ||| (pressed &&& 1) <<< 7

/-- What an event of joystick `numjoy` does before its calls of `send`. -/
def joystickEvent (f : U8 → U8) : Ikbd × List U8 :=
  if !k.joyEnabled numjoy then (k, []) else k.joystickPacket numjoy (f (k.joyState numjoy))

/-- An axis moves. -/
def sendJoystickAxis (numaxis : ℕ) (value : ℤ) : Ikbd :=
  let r := k.joystickEvent numjoy (axisState · numaxis value)
  r.1.sendAll r.2

/-- A hat moves. -/
def sendJoystickHat : Ikbd :=
  let r := k.joystickEvent numjoy (hatState · value)
  r.1.sendAll r.2

/-- A button moves. -/
def sendJoystickButton (pressed : U8) : Ikbd :=
  let r := k.joystickEvent numjoy (buttonState · pressed)
  r.1.sendAll r.2

/-! ## Commands of the CPU -/

/-- Two digits. -/
def int2bcd (a : ℕ) : U8 := BitVec.ofNat 8 ((a % 10) + ((a / 10) <<< 4))

/-- The packet of the clock command. -/
def clockPacket : List U8 :=
  [0xfc, int2bcd (t.year % 100), int2bcd (t.mon + 1), int2bcd t.mday, int2bcd t.hour, int2bcd t.min,
    int2bcd t.sec]

/-- The end of a command. -/
def done : Ikbd × List U8 := ({ k with outwrite := 0 }, [])

/-- A complete command of one byte. -/
def command1 : Ikbd × List U8 :=
  match (k.outbuffer 0).toNat with
  | 0x08 => done { k with mouseEnabled := true, joyEnabled := Function.update k.joyEnabled 1 true }
  | 0x0f => done { k with yaxisReversed := true }
  | 0x10 => done { k with yaxisReversed := false }
  | 0x12 => done { k with mouseEnabled := false }
  | 0x0d | 0x11 | 0x13 | 0x14 | 0x15 | 0x18 => done k
  | 0x16 => ({ k with intype := .joystick, outwrite := 0 }, [0xfe ||| 1, k.joyState 1])
  | 0x1a => done { k with joyEnabled := fun _ => false }
  | 0x1c => ({ k with outwrite := 0 }, clockPacket t)
  | _ => (k, [])

/-- Two bytes. -/
def command2 : Ikbd × List U8 :=
  match (k.outbuffer 0).toNat with
  | 0x07 | 0x17 => done k
  | 0x80 => if k.outbuffer 1 = 0x01 then (k.reset, [0xf1]) else (k, [])
  | _ => (k, [])

/-- Three bytes. -/
def command3 : Ikbd × List U8 :=
  match (k.outbuffer 0).toNat with
  | 0x0a => done { k with mouseEnabled := true, joyEnabled := Function.update k.joyEnabled 1 true }
  | 0x0b | 0x0c | 0x20 | 0x21 => done k
  | _ => (k, [])

/-- Four bytes. -/
def command4 : Ikbd × List U8 :=
  match (k.outbuffer 0).toNat with
  | 0x09 => done { k with mouseEnabled := true, joyEnabled := Function.update k.joyEnabled 1 true }
  | _ => (k, [])

/-- Five bytes. -/
def command5 : Ikbd × List U8 :=
  match (k.outbuffer 0).toNat with
  | 0x0e => done k
  | _ => (k, [])

/-- Six bytes. -/
def command6 : Ikbd × List U8 :=
  match (k.outbuffer 0).toNat with
  | 0x19 | 0x1b => done k
  | _ => (k, [])

/-- What a byte of a command does apart from its calls of `send`, which touch nothing that the rest
    of `WriteData` reads or writes. -/
def command : Ikbd × List U8 :=
  let k := { k with outbuffer := Function.update k.outbuffer k.outwrite value, txdr := value
                    outwrite := k.outwrite + 1 }
  match k.outwrite with
  | 1 => k.command1 t
  | 2 => k.command2
  | 3 => k.command3
  | 4 => k.command4
  | 5 => k.command5
  | 6 => k.command6
  | _ => done k

/-- `WriteData`, at time `t`. -/
def writeData : Ikbd :=
  let r := k.command t value
  r.1.sendAll r.2

/-- `ACIA::handleWrite`, for the two registers at offsets 0 and 2. -/
def handleWrite (offset : ℕ) (value : U8) : Ikbd :=
  match offset with
  | 0 => if value &&& 3 = 3 then k.aciaReset else { k with cr := value }
  | 2 => k.writeData t value
  | _ => k

/-- Reads a register. -/
def handleRead (offset : ℕ) : U8 × Ikbd :=
  match offset with
  | 0 => (k.sr, k)
  | 2 => k.readData
  | _ => (0, k)

end Ikbd

end Aranym
