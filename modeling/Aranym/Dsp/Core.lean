/-
  The DSP 56001 emulation: host port and memory map (`dsp_core.c`, `dsp_cpu.c`).

  `DspCore` is the part of `dsp_core_t` that the host port and the memory
  accesses use.  The thread handles are left out: the accesses to the port are
  made under the mutex, so each is one step, and waking the other thread changes
  nothing here.  Only `dsp_hi_interrupts` samples `HCR` and `HSR` without the
  mutex and clears the flag of the interrupt later, under it.  It is one step
  here, too: where an interrupt is taken, what the CPU does between the sample
  and the clear is left out.
-/
import Aranym.Lib.Run
import Aranym.Lib.Words

namespace Aranym

open Function

/-- `DSP_SPACE_X`, `DSP_SPACE_Y`, `DSP_SPACE_P`. -/
inductive DspSpace where
  | X | Y | P
  deriving DecidableEq, Repr

/-- `dsp_core_t`, with the fields that the functions below use. -/
structure DspCore where
  running : Bool
  registers : ℕ → U32
  ram : DspSpace → ℕ → U32
  rom : DspSpace → ℕ → U32
  ramint : DspSpace → ℕ → U32
  /-- x:0xffc0-0xffff and y:0xffc0-0xffff -/
  periph : DspSpace → ℕ → U32
  /-- the port as the CPU sees it, eight bytes -/
  hostport : ℕ → U8
  bootstrapPos : U16
  interruptInstrFetch : U32
  deriving Inhabited

namespace DspCore

variable (c : DspCore) (space : DspSpace) (address : U16)

/-! ## Registers -/

/-- `DSP_REG_M0`. -/
def regM0 : ℕ := 0x20
/-- `DSP_REG_OMR`. -/
def regOMR : ℕ := 0x3a
/-- `DSP_OMR_DE`, a bit number: the data ROM is mapped. -/
def omrDE : ℕ := 0x02

/-- `CPU_HOST_ICR`. -/
def cpuHostICR : ℕ := 0x00
/-- `CPU_HOST_CVR`. -/
def cpuHostCVR : ℕ := 0x01
/-- `CPU_HOST_ISR`. -/
def cpuHostISR : ℕ := 0x02
/-- `CPU_HOST_IVR`. -/
def cpuHostIVR : ℕ := 0x03
/-- `CPU_HOST_RXH`, and also `CPU_HOST_TXH`. -/
def cpuHostRXH : ℕ := 0x05
/-- `CPU_HOST_RXM`, and also `CPU_HOST_TXM`. -/
def cpuHostRXM : ℕ := 0x06
/-- `CPU_HOST_RXL`, and also `CPU_HOST_TXL`. -/
def cpuHostRXL : ℕ := 0x07

/-- `DSP_HOST_HCR`. -/
def hostHCR : ℕ := 0x28
/-- `DSP_HOST_HSR`. -/
def hostHSR : ℕ := 0x29
/-- `DSP_HOST_HRX`, and also `DSP_HOST_HTX`. -/
def hostHRX : ℕ := 0x2b
/-- `DSP_BCR`. -/
def dspBCR : ℕ := 0x3e
/-- `DSP_IPR`. -/
def dspIPR : ℕ := 0x3f

/-- A write to an X or Y peripheral register. -/
def setPeriph (i : ℕ) (v : U32) : DspCore :=
  { c with periph := update c.periph space (update (c.periph space) i v) }

/-- A write to a byte of the CPU's side of the port. -/
def setHostport (i : ℕ) (v : U8) : DspCore :=
  { c with hostport := update c.hostport i v }

/-- Writes internal memory. -/
def setRamint (i : ℕ) (v : U32) : DspCore :=
  { c with ramint := update c.ramint space (update (c.ramint space) i v) }

def isr : U8 := c.hostport cpuHostISR
def hsr : U32 := c.periph .X hostHSR

/-- Bit 0 of `ISR`: the CPU has a word to read. -/
def rxdf : Bool := c.isr.getLsbD 0
/-- Bit 1 of `ISR`: the CPU's transmit registers are empty. -/
def txde : Bool := c.isr.getLsbD 1
/-- Bit 0 of `HSR`: the DSP has a word to read. -/
def hrdf : Bool := c.hsr.getLsbD 0
/-- Bit 1 of `HSR`: the DSP's transmit register is empty. -/
def htde : Bool := c.hsr.getLsbD 1

/-- The power-up state. -/
def reset : DspCore :=
  { c with
    running := false
    registers := fun r =>
      if r = regOMR then 0x02 else if regM0 ≤ r ∧ r < regM0 + 8 then 0x00ffff else 0
    periph := fun
      | .X => fun i => if i = hostHSR then 2 else if i = dspBCR then 0xffff else 0
      | _ => fun _ => 0
    hostport := fun i =>
      if i = cpuHostCVR then 0x12 else if i = cpuHostISR then 6 else if i = cpuHostIVR then 0x0f
      else c.hostport i
    bootstrapPos := 0
    interruptInstrFetch := -1 }

/-! ## Transfers -/

/-- `TRDY` (bit 2 of `ISR`) is `TXDE` and not `HRDF`. -/
def hostportUpdateTrdy : DspCore :=
  let c := c.setHostport cpuHostISR (c.isr &&& 0xfb)
  let trdy : U32 := (c.isr.setWidth 32 >>> 1) &&& ~~~(c.hsr >>> 0)
  c.setHostport cpuHostISR (c.isr ||| ((trdy &&& 1) <<< 2).setWidth 8)

/-- `dsp_core_dsp2host`: a waiting word goes to the CPU if it has read the last one. -/
def dsp2host : DspCore :=
  if c.isr &&& 1 ≠ 0 then c
  else if c.hsr &&& 2 ≠ 0 then c
  else
    let c := c.setHostport cpuHostRXL ((c.periph .X hostHRX).setWidth 8)
    let c := c.setHostport cpuHostRXM ((c.periph .X hostHRX >>> 8).setWidth 8)
    let c := c.setHostport cpuHostRXH ((c.periph .X hostHRX >>> 16).setWidth 8)
    let c := c.setPeriph .X hostHSR (c.hsr ||| 2)
    c.setHostport cpuHostISR (c.isr ||| 1)

/-- `dsp_core_host2dsp`: a waiting word goes to the DSP if it has read the last one. -/
def host2dsp : DspCore :=
  if c.isr &&& 2 ≠ 0 then c
  else if c.hsr &&& 1 ≠ 0 then c
  else
    let c := c.setPeriph .X hostHRX ((c.hostport cpuHostRXL).setWidth 32)
    let c := c.setPeriph .X hostHRX
      (c.periph .X hostHRX ||| (c.hostport cpuHostRXM).setWidth 32 <<< 8)
    let c := c.setPeriph .X hostHRX
      (c.periph .X hostHRX ||| (c.hostport cpuHostRXH).setWidth 32 <<< 16)
    let c := c.setPeriph .X hostHSR (c.hsr ||| 1)
    let c := c.setHostport cpuHostISR (c.isr ||| 2)
    c.hostportUpdateTrdy

/-- The DSP has read. -/
def hostportDspread : DspCore :=
  (c.setPeriph .X hostHSR (c.hsr &&& 0xfe)).hostportUpdateTrdy.host2dsp

/-- The DSP has written. -/
def hostportDspwrite : DspCore :=
  (c.setPeriph .X hostHSR (c.hsr &&& 0xfd)).dsp2host

/-- The CPU has read. -/
def hostportCpuread : DspCore :=
  (c.setHostport cpuHostISR (c.isr &&& 0xfe)).dsp2host

/-- The CPU has written. -/
def hostportCpuwrite : DspCore :=
  (c.setHostport cpuHostISR (c.isr &&& 0xfd)).hostportUpdateTrdy.host2dsp

/-! ## The CPU's side -/

/-- `dsp_core_read_host`; `addr` is 0-7. -/
def readHost (addr : ℕ) : U8 × DspCore :=
  let value := c.hostport addr
  (value, if addr = cpuHostRXL then c.hostportCpuread else c)

/-- The three transmit bytes as the code puts them together. -/
def txWord : U32 :=
  ((c.hostport cpuHostRXH).setWidth 32 <<< 16) ||| ((c.hostport cpuHostRXM).setWidth 32 <<< 8) |||
    (c.hostport cpuHostRXL).setWidth 32

/-- A word of the bootstrap program: the DSP starts after 0x200 of them. -/
def bootstrapWord : DspCore :=
  let c := c.setRamint .P c.bootstrapPos.toNat c.txWord
  let c := { c with bootstrapPos := c.bootstrapPos + 1 }
  if c.bootstrapPos = 0x200 then { c with running := true } else c

/-- `dsp_core_write_host`; `addr` is 0-7. -/
def writeHost (addr : ℕ) (value : U8) : DspCore :=
  match addr with
  | 0x00 => -- ICR: `HF1` and `HF0` are copied to `HSR`
    let c := c.setHostport cpuHostICR (value &&& 0xfb)
    let c := c.setPeriph .X hostHSR (c.hsr &&& 0xe7)
    c.setPeriph .X hostHSR (c.hsr ||| ((c.hostport cpuHostICR).setWidth 32 &&& 0x18))
  | 0x01 => -- CVR: bit 7 is a host command
    let c := c.setHostport cpuHostCVR (value &&& 0x9f)
    if value &&& 0x80 ≠ 0 then c.setPeriph .X hostHSR (c.hsr ||| 4) else c
  | 0x03 => c.setHostport cpuHostIVR value
  | 0x05 => c.setHostport cpuHostRXH value
  | 0x06 => c.setHostport cpuHostRXM value
  | 0x07 =>
    let c := c.setHostport cpuHostRXL value
    if c.running then c.hostportCpuwrite else c.bootstrapWord
  | _ => c -- ISR and TX0 are read only

/-! ## The DSP's side -/

/-- A word. -/
def mask24 : U32 := 0xffffff

/-- `address & (DSP_RAMSIZE-1)`, an index of the external RAM. -/
def ramIndex : ℕ := (address &&& 0x7fff).toNat

/-- Program memory. -/
def readMemoryP : U32 :=
  if address < 0x200 then c.ramint .P address.toNat &&& mask24
  else c.ram .P (ramIndex address) &&& mask24

/-- Reads a word. -/
def readMemory : U32 × DspCore :=
  if address < 0x100 then (c.ramint space address.toNat &&& mask24, c)
  else if space = .P then (c.readMemoryP address, c)
  else if c.registers regOMR &&& 1#32 <<< omrDE ≠ 0 ∧ address < 0x200 then
    (c.rom space address.toNat &&& mask24, c)
  else if address ≥ 0xffc0 then
    -- the port advances before the register is read
    let c := if space = .X ∧ address = 0xffc0 + 0x2b then c.hostportDspread else c
    (c.periph space (address - 0xffc0).toNat &&& mask24, c)
  else
    -- external RAM: X is the upper half of P
    let address := if space = .X then address + 0x4000 else address
    (c.ram .P (ramIndex address) &&& mask24, c)

/-- A write to the X peripheral space. -/
def writePeriphX (i : ℕ) (value : U32) : DspCore :=
  match i with
  | 0x2b => (c.setPeriph .X hostHRX value).hostportDspwrite
  | 0x28 => -- HCR: `HF3` and `HF2` are copied to `ISR`
    let c := c.setPeriph .X hostHCR value
    let c := c.setHostport cpuHostISR (c.isr &&& 0xe7)
    c.setHostport cpuHostISR (c.isr ||| (c.periph .X hostHCR &&& 0x18).setWidth 8)
  | 0x29 => c -- HSR is read only
  | i => c.setPeriph .X i value

/-- A write to the external RAM, the same for the three spaces. -/
def setRam (value : U32) : DspCore :=
  { c with ram := update c.ram .P (update (c.ram .P) (ramIndex address) value) }

/-- Writes a word. -/
def writeMemoryRaw (value : U32) : DspCore :=
  let value := value &&& mask24
  let inRom : Prop := c.registers regOMR &&& 1#32 <<< omrDE ≠ 0 ∧ address < 0x200
  if address < 0x100 then c.setRamint space address.toNat value
  else match space with
  | .X =>
    if inRom then c
    else if address ≥ 0xffc0 then c.writePeriphX (address - 0xffc0).toNat value
    else c.setRam (address + 0x4000) value
  | .Y =>
    if inRom then c
    else if address ≥ 0xffc0 then c.setPeriph .Y (address - 0xffc0).toNat value
    else c.setRam address value
  | .P =>
    if address < 0x200 then c.setRamint .P address.toNat value
    else c.setRam address value

/-- The host interface asks for the host command interrupt. -/
def hostCommand : Prop := c.periph .X hostHCR &&& 4 ≠ 0 ∧ c.hsr &&& 4 ≠ 0
deriving Decidable

/-- The host interface asks for the host receive interrupt. -/
def hostReceive : Prop := c.periph .X hostHCR &&& 1 ≠ 0 ∧ c.hsr &&& 1 ≠ 0
deriving Decidable

/-- The host interface asks for the host transmit interrupt. -/
def hostTransmit : Prop := c.periph .X hostHCR &&& 2 ≠ 0 ∧ c.hsr &&& 2 = 0
deriving Decidable

/-- `dsp_hi_interrupts`: the priority of the interrupt to take, 99 for none. -/
def hiInterrupts : U32 × DspCore :=
  let ipl := (c.periph .X dspIPR >>> 10) &&& 3
  if c.hostCommand then
    let c := c.setPeriph .X hostHSR (c.hsr &&& 0xfb)
    let c := c.setHostport cpuHostCVR (c.hostport cpuHostCVR &&& 0x7f)
    (ipl, { c with interruptInstrFetch := ((c.hostport cpuHostCVR).setWidth 32 &&& 0x1f) * 2 })
  else if c.hostReceive then
    (ipl, { c.setPeriph .X hostHSR (c.hsr &&& 0xfe) with interruptInstrFetch := 0x20 })
  else if c.hostTransmit then
    (ipl, { c.setPeriph .X hostHSR (c.hsr &&& 0xfd) with interruptInstrFetch := 0x22 })
  else (99, c)

/-! ## The port as a machine -/

/-- What the two sides can do. -/
inductive Ev where
  | readHost (addr : ℕ)
  | writeHost (addr : ℕ) (value : U8)
  | readMemory (space : DspSpace) (address : U16)
  | writeMemory (space : DspSpace) (address : U16) (value : U32)
  | hiInterrupts
  deriving DecidableEq

/-- One access; the output is what a read returns. -/
def step (c : DspCore) : Ev → DspCore × U32
  | .readHost addr => ((c.readHost addr).2, (c.readHost addr).1.setWidth 32)
  | .writeHost addr value => (c.writeHost addr value, 0)
  | .readMemory space address => ((c.readMemory space address).2, (c.readMemory space address).1)
  | .writeMemory space address value => (c.writeMemoryRaw space address value, 0)
  | .hiInterrupts => (c.hiInterrupts.2, c.hiInterrupts.1)

end DspCore

end Aranym
