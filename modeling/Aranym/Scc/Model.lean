/-
  The serial communication controller (`scc.cpp`).

  Two channels share one set of interrupt registers: `RR3` holds the pending
  sources and `RR3M` the mask.  Channel B is the serial port of the host, which
  is outside of the controller: what it answers to an access is part of the
  access (`Line`), and what the controller asks of it or of the processor is an
  `Effect`.
-/
import Aranym.Lib.Words

namespace Aranym

open Lib

/-- The serial controller. -/
structure Scc where
  /-- the register of the next access, 0 to 15 -/
  activeReg : ℕ
  /-- channel A, and from 16 on channel B -/
  sccRegs : ℕ → U8
  /-- pending: A Rx 5, A Tx 4, A Ext 3, B Rx 2, B Tx 1, B Ext 0 -/
  rr3 : U8
  rr3m : U8
  /-- characters that the host has not delivered yet -/
  charcount : ℤ

instance : Inhabited Scc := ⟨⟨0, fun _ => 0, 0, 0, 0⟩⟩

namespace Scc

variable (s : Scc) (set2 : ℕ) (value : U8) (status : U16)

/-- What the serial port answers to an access. -/
structure Line where
  /-- `getStatus` -/
  status : U16
  /-- the `charcount` that `getStatus` leaves in the controller, if the port is open -/
  charcount : Option ℤ
  /-- `getData` -/
  data : U8

/-- What the host sees. -/
inductive Effect where
  | setData (value : U8)
  | setRTS (value : Bool)
  | setDTR (value : Bool)
  | setBaud (value : ℕ)
  /-- the `SPCFLAG_SCC` of the processor is set or cleared -/
  | triggerSCC (on : Bool)
deriving DecidableEq

/-! ## Resets -/

/-- Writes a register. -/
def setReg (r : ℕ) (value : U8) : Scc :=
  { s with sccRegs := Function.update s.sccRegs r value }

/-- What both channel resets do: `set2` is 0 for A and 16 for B, and `sources` the three bits of the
    channel in `RR3`. -/
def channelReset (sources : U8) (s : Scc) : Scc :=
  let s := (((s.setReg (15 + set2) 0xf8).setReg (14 + set2) 0xa0).setReg
    (11 + set2) 0x08).setReg 9 0
  -- `1<<TBE`
  { s with rr3 := s.rr3 &&& ~~~ sources, rr3m := s.rr3m &&& ~~~ sources }.setReg set2 4

/-- Channel A. -/
def channelAreset : Scc → Scc := channelReset 0 0x38

/-- Channel B. -/
def channelBreset : Scc → Scc := channelReset 16 7

/-- The power-up state. -/
def reset : Scc :=
  let s := { s with activeReg := 0, sccRegs := fun r => if r < 32 then 0 else s.sccRegs r }
  { s.channelAreset.channelBreset with rr3 := 0, rr3m := 0, charcount := 0 }

/-! ## Reads -/

/-- Asks the line. -/
def getStatus (line : Line) : Scc := { s with charcount := line.charcount.getD s.charcount }

/-- `temp>>8` -/
def report : U8 := (status >>> 8).setWidth 8

/-- The status. -/
def readRR0 (line : Line) : U8 × Scc :=
  if set2 = 16 then
    let s := (s.getStatus line).setReg 16 (line.status.setWidth 8)
    (s.sccRegs 16, { s with rr3 := s.rr3m &&& report line.status })
  else
    let s := s.setReg 0 4
    (s.sccRegs 0, if s.sccRegs 9 = 0x20 then { s with rr3 := s.rr3 ||| 8 } else s)

/-- The bits that `RR2B` adds to the vector: none pending, and the highest pending source. -/
def statusBits : U8 × (ℕ → U8) :=
  if s.sccRegs 9 &&& 0x10 ≠ 0 then
    (0x60, fun | 5 => 0x30 | 4 => 0x10 | 3 => 0x50 | 2 => 0x20 | 0 => 0x40 | _ => 0)
  else
    (6, fun | 5 => 0xc | 4 => 8 | 3 => 0xa | 2 => 4 | 0 => 2 | _ => 0)

/-- The vector. -/
def readRR2 (s : Scc) (set2 : ℕ) : U8 :=
  let value := s.sccRegs 2
  if set2 = 0 then value
  else if s.sccRegs 9 &&& 1 = 0 then value
  else if s.rr3 = 0 then value ||| s.statusBits.1
  else
    match highest s.rr3 6 with
    | some j => value ||| s.statusBits.2 j
    | none => value

/-- The register selected by the last write. -/
def readControl (line : Line) : U8 × Scc :=
  match s.activeReg with
  | 0 => s.readRR0 set2 line
  | 2 => (s.readRR2 set2, s)
  | 3 => (if set2 = 16 then 0 else s.rr3, s)
  | 4 => (s.sccRegs set2, s)
  | 8 =>
    let s := if set2 = 16 then s.setReg (8 + set2) line.data else s
    (s.sccRegs (8 + set2), s)
  | 9 => (s.sccRegs (13 + set2), s)
  | 11 | 15 =>
    let s := s.setReg (15 + set2) (s.sccRegs (15 + set2) &&& 0xfa)
    (s.sccRegs (15 + set2), s)
  | 12 => (s.sccRegs (12 + set2), s)
  | 13 => (s.sccRegs (13 + set2), s)
  | _ => (0, s)

/-- Reads a port. -/
def handleRead (offset : ℕ) (line : Line) : U8 × Scc :=
  let r := match offset with
    | 0 => s.readControl 0 line
    | 4 => s.readControl 16 line
    | 2 => (s.sccRegs 8, s)
    | 6 =>
      let s := s.setReg 24 line.data
      (s.sccRegs 24, s)
    | _ => (0, s)
  (r.1, { r.2 with activeReg := 0 })

/-! ## Writes -/

/-- The flag of the processor follows the pending sources if `WR9` asks for it. -/
def pending : Bool := s.rr3 &&& s.rr3m ≠ 0 ∧ 0xb &&& s.sccRegs 9 = 9

/-- Reset Highest IUS. -/
def resetHighestIus : Scc :=
  match highest s.rr3 6 with
  | none => s
  | some 2 =>
    let charcount := s.charcount - 1
    -- RxIP stays while characters are buffered
    { s with charcount, rr3 := if charcount ≤ 0 then s.rr3 &&& ~~~ 4 else s.rr3 }
  | some j => { s with rr3 := s.rr3 &&& ~~~ (1#8 <<< j) }

/-- A command written to `WR0`. -/
def command : Scc :=
  if value &&& 0x38 = 0x38 then s.resetHighestIus
  else if value &&& 0x38 = 0x28 then
    { s with rr3 := s.rr3 &&& ~~~ (if set2 = 16 then 2 else 0x10) }
  else if value &&& 0x38 = 0x10 then
    { s with rr3 := s.rr3 &&& ~~~ (if set2 = 16 then 1 else 8) }
  else s

/-- Commands. -/
def writeWR0 : Scc × List Effect :=
  if value ≤ 15 then ({ s with activeReg := (value &&& 0xf).toNat }, [])
  else
    let s := s.command set2 value
    (s, [.triggerSCC s.pending])

/-- `if(on)RR3M|=source;else RR3&=~source;` -/
def enable (on : Prop) [Decidable on] (source : U8) : Scc :=
  if on then { s with rr3m := s.rr3m ||| source } else { s with rr3 := s.rr3 &&& ~~~ source }

/-- The enable bits. -/
def writeWR1 : Scc :=
  if set2 = 0 then
    ((s.enable (value &&& 1 ≠ 0) 8).enable (value &&& 2 ≠ 0) 16).enable (value &&& 0x18 ≠ 0) 32
  else
    ((s.enable (value &&& 1 ≠ 0) 1).enable (value &&& 2 ≠ 0) 2).enable (value &&& 0x18 ≠ 0) 4

/-- The master enable and resets. -/
def writeWR9 : Scc :=
  let s := s.setReg 9 value
  let s := if value &&& 0x40 ≠ 0 then s.channelBreset else s
  if value &&& 0x80 ≠ 0 then s.channelAreset else s

/-- The rate for `WR13` and `WR12`; 0 if it is not known. -/
def baudRate (msb lsb : U8) : ℕ :=
  match msb.toNat with
  | 0 =>
    match lsb.toNat with
    | 0 => 230400
    | 2 => 115200
    | 6 | 0x7e | 0x44 => 57600
    | 0xa | 0xe4 | 0x7c => 38400
    | 0x16 | 0xb => 19200
    | 0x2e | 0x18 => 9600
    | 0x5e | 0x32 => 4800
    | 0xbe | 0x67 => 2400
    | 0xfe | 0x8a => 1800
    | 0xd0 => 1200
    | 1 => 75
    | 4 => 50
    | _ => 0
  | 1 => if lsb = 0xa1 then 600 else if lsb = 0x7e then 1200 else 0
  | 2 => if lsb = 0xfe then 600 else 0
  | 3 => if lsb = 0x45 then 300 else 0
  | 4 => if lsb = 0xe8 then 200 else 0
  | 5 => if lsb = 0xfe then 300 else 0
  | 6 => if lsb = 0x8c then 150 else 0
  | 7 => if lsb = 0x4d then 134 else 0
  | 8 => if lsb = 0xee then 110 else 0
  | 0xd => if lsb = 0x1a then 75 else 0
  | 0x13 => if lsb = 0xa8 then 50 else 0
  | _ => 0

/-- A register other than `WR0`. -/
def writeReg : Scc × List Effect :=
  let s := s.setReg (s.activeReg + set2) value
  match s.activeReg with
  | 1 =>
    let s := s.writeWR1 set2 value
    (s, [.triggerSCC s.pending])
  | 2 =>
    let s := s.setReg 2 value
    (s, [.triggerSCC s.pending])
  | 5 => (s, [.setRTS (value &&& 2 ≠ 0), .setDTR (value &&& 128 ≠ 0)])
  | 8 => (s, if set2 = 16 then [.setData value] else [])
  | 9 =>
    let s := s.writeWR9 value
    (s, [.triggerSCC s.pending])
  | 13 =>
    let rate := baudRate value (s.sccRegs (12 + set2))
    (s, if rate ≠ 0 then [.setBaud rate] else [])
  | _ => (s, [])

/-- Writes a register. -/
def writeControl : Scc × List Effect :=
  if s.activeReg = 0 then s.writeWR0 set2 value
  else
    let r := s.writeReg set2 value
    ({ r.1 with activeReg := 0 }, r.2)

/-- Writes a port. -/
def handleWrite (offset : ℕ) (value : U8) : Scc × List Effect :=
  match offset with
  | 0 => s.writeControl 0 value
  | 4 => s.writeControl 16 value
  | 6 => (s, [.setData value])
  | _ => (s, [])

/-! ## Interrupts -/

/-- The status that a tick works with: a change of A Ext is faked for the installation of
    HSMODEM. -/
def tickStatus : U16 :=
  if s.sccRegs 9 = 0x20 then status ||| 0x800 else status

/-- The timer's look at the lines. -/
def irq (line : Line) : Scc × List Effect :=
  let s := s.getStatus line
  let temp := s.tickStatus line.status
  let s := s.setReg 16 (temp.setWidth 8)
  let s := { s with rr3 := s.rr3m &&& report temp }
  (s, if s.rr3 ≠ 0 ∧ s.sccRegs 9 &&& 0xb = 9 then [.triggerSCC true] else [])

/-- The source that `doInterrupt` serves. -/
def served : Option ℕ := highest (s.rr3 &&& s.rr3m) 6

/-- The vector number; zero if there is no interrupt. -/
def doInterrupt : U8 :=
  let vector := s.sccRegs 2
  if s.sccRegs 9 &&& 3 = 0 then vector
  else if s.sccRegs 9 &&& 0x32 ≠ 0 then 0
  else
    match s.served with
    | none => 0
    | some 0 => vector ||| 2
    | some 2 => vector ||| 4
    | some 3 => vector ||| 0xa
    | some 4 => vector ||| 8
    | some 5 => vector ||| 0xc
    | some _ => vector

end Scc

end Aranym
