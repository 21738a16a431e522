/-
  The MFP 68901 emulation (`mfp.cpp`).

  The class `MFP` is the record `Mfp`; a method is a function on it.  The one bit
  of the CPU's `spcflags` that the MFP drives (`SPCFLAG_MFP`, through `TriggerMFP`)
  is kept in the record.  The USART registers are left out: no method reads them.
-/
import Aranym.Lib.Run
import Aranym.Lib.Words

namespace Aranym

/-! ## The timers -/

/-- `MFP_Timer` (without its name, which is only printed). -/
structure MfpTimer where
  control : U8
  startData : U8
  currentData : U8
  state : Bool
  deriving DecidableEq, Repr, Inhabited

namespace MfpTimer

variable (t : MfpTimer) (value : U8)

/-- Stopped. -/
def reset : MfpTimer := ⟨0, 0, 0, false⟩

/-- Any mode but stop. -/
def isRunning : Bool := 0 < t.control &&& 0x0f#8

/-- Writes the control register. -/
def setControl : MfpTimer :=
  { t with control := value &&& 0x0f#8
           state := if value &&& 0x10#8 ≠ 0 then false else t.state }

/-- Reads it. -/
def getControl : U8 := t.control ||| (if t.state then 0x20#8 else 0)

/-- Writes the data register. -/
def setData : MfpTimer :=
  { t with startData := value, currentData := if t.isRunning then t.currentData else value }

/-- A delay is over. -/
def resetCounter : MfpTimer :=
  if t.isRunning then { t with state := true, currentData := t.startData } else t

/-- Reading a running timer counts it down by one (a hack for delay loops of TOS). -/
def getData : U8 × MfpTimer :=
  let t := if t.isRunning ∧
    2 < t.currentData then { t with currentData := t.currentData - 1 } else t
  (t.currentData, t)

end MfpTimer

/-! ## The chip -/

/-- `MFP`, with the CPU's flag `SPCFLAG_MFP`. -/
structure Mfp where
  input : U8
  gpipData : U8
  activeEdge : U8
  dataDirection : U8
  irqEnable : U16
  irqPending : U16
  irqInservice : U16
  irqMask : U16
  A : MfpTimer
  B : MfpTimer
  C : MfpTimer
  D : MfpTimer
  /-- an `int` -/
  timerCounter : ℤ
  vr : ℕ
  spcflagMfp : Bool
  deriving DecidableEq, Repr, Inhabited

namespace Mfp

variable (x : U16) (m : Mfp) (t : MfpTimer) (keep : U16) (value : U8)

/-- `MFP_VR_VECTOR`: the part of `vr` that selects the vectors. -/
def vrVector : ℕ := 0xF0

/-- `MFP_VR_SEI`: software end of interrupt. -/
def vrSei : ℕ := 0x08

/-- The power-up state. -/
def reset (m : Mfp) : Mfp :=
  { m with
    input := 0xff, gpipData := 0xff, vr := 0x0100, activeEdge := 0, dataDirection := 0
    irqEnable := 0, irqPending := 0, irqInservice := 0, irqMask := 0, timerCounter := 0
    A := .reset, B := .reset, C := .reset, D := .reset }

/-- Tells the CPU. -/
def triggerMfp (enable : Bool) : Mfp := { m with spcflagMfp := enable }

/-- `MFP::IRQ`.  A level above 15 has no bit in the 16-bit registers. -/
def irq (level : ℕ) (count : ℤ) : Mfp :=
  let i := 1#16 <<< level
  -- level 5 is Timer C, whose requests are counted
  let m := if level = 5 then { m with C := m.C.resetCounter } else m
  if m.irqEnable &&& i = 0 then m
  else
    let m := if level = 5 then { m with timerCounter := Lib.int (m.timerCounter + count) } else m
    if m.irqPending &&& i ≠ 0 then m
    else
      let m := { m with irqPending := m.irqPending ||| i }
      if m.irqMask &&& i = 0 then m
      else if m.irqInservice > i then m
      else m.triggerMfp true

/-- The part of `doInterrupt` that takes request `j` off the pending ones.  A Timer C request stays
    pending until its ticks are used up. -/
def dropRequest (j : ℕ) : Mfp :=
  let m := if j = 5 then { m with timerCounter := Lib.int (m.timerCounter - 1) } else m
  if j ≠ 5 ∨ m.timerCounter ≤ 0 then
    { m with irqPending := m.irqPending &&& ~~~(1#16 <<< j) }.triggerMfp false
  else m

/-- The part of `doInterrupt` that depends on the end-of-interrupt mode. -/
def enterService (j : ℕ) : Mfp :=
  if m.vr &&& vrSei ≠ 0 then { m with irqInservice := m.irqInservice ||| 1#16 <<< j }
  -- nothing in service will raise the flag again, so other pending requests keep it
  else if m.irqPending &&& m.irqMask ≠ 0 then m.triggerMfp true
  else m

/-- `MFP::doInterrupt`: the vector number (`0` for none) and the state after it. -/
def doInterrupt : ℕ × Mfp :=
  match Lib.highest (m.irqPending &&& m.irqMask) 16 with
  | none => (0, m.triggerMfp false)
  | some j =>
    if m.irqInservice ≥ 1#16 <<< j then (0, m.triggerMfp false)
    else ((m.vr &&& vrVector) + j, (m.dropRequest j).enterService j)

/-- `map_gpip_to_ier`: the request raised by an input line. -/
def mapGpipToIer : ℕ → ℕ
  | 4 => 6
  | 5 => 7
  | 6 => 14
  | 7 => 15
  | j => j

/-- The loop over the eight lines, requesting those for which `p` holds. -/
def irqLines (p : ℕ → Bool) (m : Mfp) : Mfp :=
  (List.range 8).foldl (fun m j => if p j then m.irq (mapGpipToIer j) 1 else m) m

/-- A change can be an edge. -/
def setActiveEdge : Mfp :=
  let edge (j : ℕ) : Bool :=
    m.activeEdge.getLsbD j ≠ value.getLsbD j && !m.dataDirection.getLsbD j &&
      m.activeEdge.getLsbD j ≠ m.input.getLsbD j
  { m.irqLines edge with activeEdge := value }

/-- `MFP::setGPIPbit`; the code uses the low 8 bits of its two `int` arguments only. -/
def setGPIPbit (mask value : U8) : Mfp :=
  let old := m.gpipData
  let m := { m with input := (m.input &&& ~~~mask) ||| (value &&& mask) }
  let mask := mask &&& ~~~m.dataDirection
  let m := { m with gpipData := (m.gpipData &&& ~~~mask) ||| (value &&& mask) }
  let edge (j : ℕ) : Bool :=
    old.getLsbD j ≠ m.gpipData.getLsbD j &&
      -- `active_edge` selects the edge 0 → 1 or the edge 1 → 0
      (if m.activeEdge.getLsbD j then !old.getLsbD j else !m.gpipData.getLsbD j)
  m.irqLines edge

/-! ## Register accesses -/

/-- `getHWoffset()` and `getHWsize()` of the MFP (`hardware.cpp`). -/
def hwOffset : U32 := 0xfffa00
/-- The registers' range. -/
def hwSize : U32 := 0x30

/-- The low byte of a 16-bit register replaced by `value`. -/
def withLow : U16 := (x &&& 0xff00) ||| value.setWidth 16

/-- The high byte of a 16-bit register replaced by `value`. -/
def withHigh : U16 :=
  (x &&& 0x00ff) ||| (value.setWidth 16 <<< 8)

/-- A write to one of the registers `IERA`, `IERB`. -/
def writeEnable (enable : U16) : Mfp :=
  { m with irqEnable := enable, irqPending := m.irqPending &&& enable }

/-- A write to one of the registers `IPRA`, `IPRB`: bits can only be cleared. -/
def writePending : Mfp :=
  let m := { m with irqPending := m.irqPending &&& keep }
  if m.irqPending &&& m.irqMask = 0 then m.triggerMfp false else m

/-- A write to one of the registers `ISRA`, `ISRB`: bits can only be cleared. -/
def writeInservice : Mfp :=
  let m := { m with irqInservice := m.irqInservice &&& keep }
  if m.irqPending &&& m.irqMask ≠ 0 then m.triggerMfp true else m

/-- A write to one of the registers `IMRA`, `IMRB`. -/
def writeMask (mask : U16) : Mfp :=
  { m with irqMask := mask }.triggerMfp (m.irqPending &&& mask ≠ 0)

/-- A write to `VR`. -/
def writeVr : Mfp :=
  let m := { m with vr := value.toNat }
  if m.vr &&& vrSei ≠ 0 then m
  else { m with irqInservice := 0 }.triggerMfp (m.irqPending &&& m.irqMask ≠ 0)

/-- Writes a register. -/
def handleWrite (addr : U32) (value : U8) : Mfp :=
  let addr := addr - hwOffset
  if addr > hwSize then m
  else match addr.toNat with
  | 0x01 => { m with gpipData := (m.gpipData &&& ~~~m.dataDirection) |||
    (value &&& m.dataDirection) }
  | 0x03 => m.setActiveEdge value
  | 0x05 => { m with dataDirection := value
                     gpipData := (m.gpipData &&& value) ||| (m.input &&& ~~~value) }
  | 0x07 => m.writeEnable (withHigh m.irqEnable value)
  | 0x09 => m.writeEnable (withLow m.irqEnable value)
  | 0x0b => m.writePending (withHigh 0x00ff value)
  | 0x0d => m.writePending (withLow 0xff00 value)
  | 0x0f => m.writeInservice (withHigh 0x00ff value)
  | 0x11 => m.writeInservice (withLow 0xff00 value)
  | 0x13 => m.writeMask (withHigh m.irqMask value)
  | 0x15 => m.writeMask (withLow m.irqMask value)
  | 0x17 => m.writeVr value
  | 0x19 => { m with A := m.A.setControl value }
  | 0x1b => { m with B := m.B.setControl value }
  | 0x1d => { m with C := m.C.setControl (value >>> 4), D := m.D.setControl (value &&& 0x0f) }
  | 0x1f => { m with A := m.A.setData value }
  | 0x21 => { m with B := m.B.setData value }
  | 0x23 => { m with C := m.C.setData value }
  | 0x25 => { m with D := m.D.setData value }
  | _ => m

/-- `MFP::handleRead`; `busy` is the printer's busy line. -/
def handleRead (busy : U8) (addr : U32) : U8 × Mfp :=
  let addr := addr - hwOffset
  if addr > hwSize then (0, m)
  else match addr.toNat with
  | 0x01 => ((m.gpipData &&& ~~~0x21#8) ||| busy, m)
  | 0x03 => (m.activeEdge, m)
  | 0x05 => (m.dataDirection, m)
  | 0x07 => ((m.irqEnable >>> 8).setWidth 8, m)
  | 0x09 => (m.irqEnable.setWidth 8, m)
  | 0x0b => (0x20, m)
  | 0x0d => (m.irqPending.setWidth 8, m)
  | 0x0f => ((m.irqInservice >>> 8).setWidth 8, m)
  | 0x11 => (m.irqInservice.setWidth 8, m)
  | 0x13 => ((m.irqMask >>> 8).setWidth 8, m)
  | 0x15 => (m.irqMask.setWidth 8, m)
  | 0x17 => (BitVec.ofNat 8 m.vr, m)
  | 0x19 => (m.A.getControl, m)
  | 0x1b => (m.B.getControl, m)
  | 0x1d => ((m.C.getControl <<< 4) ||| m.D.getControl, m)
  | 0x1f => (m.A.getData.1, { m with A := m.A.getData.2 })
  | 0x21 => (m.B.getData.1, { m with B := m.B.getData.2 })
  | 0x23 => (m.C.getData.1, { m with C := m.C.getData.2 })
  | 0x25 => (m.D.getData.1, { m with D := m.D.getData.2 })
  | 0x2d => (0x80, m)
  | _ => (0, m)

/-! ## The chip as a machine -/

/-- The MFP part of `SERVE_VBL_MFP`, with `intmask` below 6: when the flag is set the chip is
    asked for its vector, and the flag is cleared if the answer is `0`. -/
def serveMfp : ℕ × Mfp :=
  if m.spcflagMfp then
    let r := m.doInterrupt
    if r.1 ≠ 0 then r else (0, r.2.triggerMfp false)
  else (0, m)

/-- What can happen to the chip. -/
inductive Op where
  | write (addr : U32) (value : U8)
  | read (busy : U8) (addr : U32)
  | irq (level : ℕ) (count : ℤ)
  | setGPIPbit (mask value : U8)
  | doInterrupt
  | serve

/-- One operation; the output is the vector of an acknowledge. -/
def step : Op → Mfp × ℕ
  | .write addr value => (m.handleWrite addr value, 0)
  | .read busy addr => ((m.handleRead busy addr).2, 0)
  | .irq level count => (m.irq level count, 0)
  | .setGPIPbit mask value => (m.setGPIPbit mask value, 0)
  | .doInterrupt => (m.doInterrupt.2, m.doInterrupt.1)
  | .serve => (m.serveMfp.2, m.serveMfp.1)

/-- The state after the operations, from a reset with `SPCFLAG_MFP` clear. -/
def after (ops : List Op) : Mfp := Lib.run step (m.reset.triggerMfp false) ops

end Mfp

end Aranym
