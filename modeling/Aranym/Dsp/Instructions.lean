/-
  The DSP 56001 emulation: the instructions that are not of the ALU, and the
  parallel moves (`dsp_cpu.c`).

  A parallel move reads its sources before the instruction and writes its
  destinations after it; in between they are a list of `PmWrite`
  (`tmp_parmove_src` and `tmp_parmove_dest`).
-/
import Aranym.Dsp.Alu

namespace Aranym.Dsp

open DspCore (regOMR)

variable (d : Dsp) (inst : U32)

/-! ## Accumulators as sources -/

/-- `dsp_pm_read_accu24`: the limited value of an accumulator, and whether it was limited. -/
def pmReadAccu24 (numreg : ℕ) : U32 × Bool :=
  let x := d.accu (numreg % 2)
  let value := x.hi &&& 0xff
  let (value, numbits) := match d.scaling with
    | 0 => (value <<< 1 ||| bitAt x.mid 23, 9)
    | 2 => (value <<< 2 ||| (x.mid >>> 22 &&& 3), 10)
    | _ => (value, 8)
  if value = 0 ∨ value = bitmask numbits then (x.mid, false)
  else if x.sign then (0x00800000, true)
  else (0x007fffff, true)

/-- `L` is set if a value was limited. -/
def limit (limited : Bool) : Dsp :=
  if limited then d.setReg regSR (d.reg regSR ||| 0x40) else d

/-- A register as a source, limited for an accumulator. -/
def readSource (numreg : ℕ) : U32 × Dsp :=
  if isAccu numreg then
    let (value, limited) := d.pmReadAccu24 numreg
    (value, d.limit limited)
  else (d.reg numreg, d)

/-- A register as a destination of a 24-bit value, sign extended for an accumulator. -/
def writeDest (numreg : ℕ) (value : U32) : Dsp :=
  if isAccu numreg then d.setAccu (numreg % 2) ⟨signLimb value, value &&& 0xffffff, 0⟩
  else d.setReg numreg (value &&& bitmask (registersMask numreg))

/-! ## Bits -/

/-- Where the bit is. -/
inductive BitTarget where
  | mem (space : DspSpace) (addr : U32)
  | reg (numreg : ℕ)

/-- `A1` or `B1` for an accumulator. -/
def bitReg (numreg : ℕ) : ℕ := if isAccu numreg then regA1 + numreg % 2 else numreg

/-- The operand of the bit instructions: `x:aa`, `x:ea`, `x:pp` or a register. -/
def bitOperand : U32 × BitTarget × Dsp :=
  let space := spaceOf (field inst 6 1)
  let value := field inst 8 6
  match field inst 14 2 with
  | 0 =>
    let addr : U32 := value
    let (v, d) := d.readMemory space addr
    (v, .mem space addr, d)
  | 1 =>
    let (addr, _, d) := d.calcEa value
    let (v, d) := d.readMemory space addr
    (v, .mem space addr, d)
  | 2 =>
    let addr : U32 := 0xffc0 + value
    let (v, d) := d.readMemory space addr
    (v, .mem space addr, d)
  | _ => (d.reg (bitReg value), .reg (bitReg value), d)

/-- `bchg`, `bclr` and `bset`: the new value of the operand, and the one of `A2` or `B2` if bit 23
    of an accumulator is changed. -/
def bitOp (f : U32 → ℕ → U32) (ext : U32 → U32) (d : Dsp) (inst : U32) : Dsp :=
  let (value, target, d) := d.bitOperand inst
  let numbit := field inst 0 5
  let srcreg := field inst 8 6
  let newcarry := bitAt value numbit
  let d := match target with
    | .mem space addr => d.writeMemory space addr (f value numbit)
    | .reg numreg =>
      let d := d.setReg numreg (f value numbit)
      if isAccu srcreg ∧ numbit = 23 then d.setReg (regA2 + srcreg % 2) (ext newcarry) else d
  d.updateSr 1 newcarry

/-- The bit is changed. -/
def bchg : Dsp → U32 → Dsp :=
  bitOp (fun value n => if value.getLsbD n then value - 1#32 <<< n else value + 1#32 <<< n)
    fun newcarry => if newcarry ≠ 0 then 0x00 else 0xff

/-- The bit is cleared. -/
def bclr : Dsp → U32 → Dsp :=
  bitOp (fun value n => value &&& (0xffffffff - 1#32 <<< n)) fun _ => 0x00

/-- The bit is set. -/
def bset : Dsp → U32 → Dsp := bitOp (fun value n => value ||| 1#32 <<< n) fun _ => 0xff

/-- The bit goes into the carry. -/
def btst : Dsp :=
  let (value, _, d) := d.bitOperand inst
  d.updateSr 1 (bitAt value (field inst 0 5))

/-! ## Jumps -/

/-- A taken jump has no length. -/
def jump (newpc : U32) : Dsp := { d with pc := newpc.setWidth 16, curInstLen := 0 }

/-- The address after the instruction. -/
def nextPc : U32 := d.pc.setWidth 32 + d.curInstLen

/-- The return address and `SR`. -/
def pushPc : Dsp := d.stackPush d.nextPc (d.reg regSR)

/-- `jclr`, `jset`, `jsclr` and `jsset`: a jump, or a call, if the bit has the value `on`. -/
def bitJump (on call : Bool) (d : Dsp) (inst : U32) : Dsp :=
  let (value, _, d) := d.bitOperand inst
  let d := { d with curInstLen := d.curInstLen + 1 }
  if value.getLsbD (field inst 0 5) = on then
    let d := if call then d.pushPc else d
    d.jump (d.readMemoryP (d.pc + 1))
  else d

/-- A polling loop on the host port makes the thread wait, and goes on here. -/
def jclr : Dsp → U32 → Dsp := bitJump false false

/-- To the target if the bit is set. -/
def jset : Dsp → U32 → Dsp := bitJump true false

/-- A call if the bit is clear. -/
def jsclr : Dsp → U32 → Dsp := bitJump false true

/-- A call if the bit is set. -/
def jsset : Dsp → U32 → Dsp := bitJump true true

/-- The target and the condition of `jcc` and `jscc`; `ea` is the high byte of the form with an
    effective address. -/
def jumpTarget (ea : ℕ) : U32 × ℕ × Dsp :=
  if field inst 16 8 = ea then
    let (newpc, _, d) := d.calcEa (field inst 8 6)
    (newpc, field inst 0 4, d)
  else (inst &&& 0xfff, field inst 12 4, d)

/-- A jump under a condition. -/
def jcc : Dsp :=
  let (newpc, ccCode, d) := d.jumpTarget inst 0x0a
  if d.calcCc ccCode then d.jump newpc else d

/-- A call under a condition. -/
def jscc : Dsp :=
  let (newpc, ccCode, d) := d.jumpTarget inst 0x0b
  if d.calcCc ccCode then d.pushPc.jump newpc else d

/-- A jump to itself makes the thread wait, and goes on here. -/
def jmp : Dsp :=
  match field inst 16 8 with
  | 0x0a =>
    let (newpc, _, d) := d.calcEa (field inst 8 6)
    d.jump newpc
  | 0x0c => d.jump (inst &&& 0xfff)
  | _ => d.jump (d.pc.setWidth 32)

/-- The first `jsr` of a long interrupt does not save the return address. -/
def jsr : Dsp :=
  let (newpc, d) :=
    if field inst 12 4 = 0 then (inst &&& 0xfff, d)
    else
      let (newpc, _, d) := d.calcEa (field inst 8 6)
      (newpc, d)
  let d := if d.interruptState ≠ .long then d.pushPc else { d with interruptState := .none }
  d.jump newpc

/-- Back, with the saved `SR`. -/
def rti : Dsp :=
  let (newpc, newsr, d) := d.popPair
  (d.setReg regSR newsr).jump newpc

/-- Back, with `SR` as it is. -/
def rts : Dsp :=
  let (newpc, _, d) := d.popPair
  d.jump newpc

/-! ## Loops -/

/-- Loads `LC`. -/
def setLc (value : U32) : Dsp := d.setReg regLC value

/-- `#xx` of `do` and `rep` -/
def immediate12 : U32 := field inst 8 8 + field inst 0 4 <<< 8

/-- The count is in memory. -/
def doAa : Dsp :=
  let (value, d) := d.readMemory (spaceOf (field inst 6 1)) (field inst 8 6)
  d.setLc (value &&& 0xffff)

/-- The count is in the instruction. -/
def doImm : Dsp := d.setLc (immediate12 inst)

/-- The count is at an effective address. -/
def doEa : Dsp :=
  let (addr, _, d) := d.calcEa (field inst 8 6)
  let (value, d) := d.readMemory (spaceOf (field inst 6 1)) addr
  d.setLc (value &&& 0xffff)

/-- `do` and `rep` with a register: `LC` gets the value, and is masked after `L` has been set. -/
def loopReg : Dsp :=
  let numreg := field inst 8 6
  let d := if isAccu numreg then
      let (value, limited) := d.pmReadAccu24 numreg
      (d.setLc value).limit limited
    else d.setLc (d.reg numreg)
  d.setLc (d.reg regLC &&& 0xffff)

/-- The count is in a register. -/
def doReg : Dsp → U32 → Dsp := loopReg

/-- An unknown word stops the processor. -/
def undefined : Dsp := { d with curInstLen := 0 }

/-- The index of `opcodes_do` and `opcodes_rep`. -/
def loopForm : ℕ := field inst 14 2 * 2 + field inst 7 1

/-- The forms of `DO`. -/
def opcodesDo : Dsp :=
  match loopForm inst with
  | 0 => d.doAa inst
  | 2 => d.doEa inst
  | 4 => d.undefined
  | 6 => d.doReg inst
  | _ => d.doImm inst

/-- `dsp_do`. -/
def «do» : Dsp :=
  let d := d.stackPush (d.reg regLA) (d.reg regLC)
  let d := d.setReg regLA (d.readMemoryP (d.pc + 1) &&& 0xffff)
  let d := { d with curInstLen := d.curInstLen + 1 }
  let d := d.pushPc
  let d := d.setReg regSR (d.reg regSR ||| 0x8000)
  d.opcodesDo inst

/-- Leaves the loop. -/
def enddo : Dsp := d.popSr.popLoop

/-- Unlike `doAa`, `repAa` does not mask the count. -/
def repAa : Dsp :=
  let (value, d) := d.readMemory (spaceOf (field inst 6 1)) (field inst 8 6)
  d.setLc value

/-- The count is in the instruction. -/
def repImm : Dsp := d.setLc (immediate12 inst)

/-- Unlike `doEa`, `repEa` does not mask the count. -/
def repEa : Dsp :=
  let (addr, _, d) := d.calcEa (field inst 8 6)
  let (value, d) := d.readMemory (spaceOf (field inst 6 1)) addr
  d.setLc value

/-- The count is in a register. -/
def repReg : Dsp → U32 → Dsp := loopReg

/-- The forms of `REP`. -/
def opcodesRep : Dsp :=
  match loopForm inst with
  | 0 => d.repAa inst
  | 2 => d.repEa inst
  | 4 => d.undefined
  | 6 => d.repReg inst
  | _ => d.repImm inst

/-- Repeats the next instruction. -/
def rep : Dsp :=
  let d := d.setReg regLCSAVE (d.reg regLC)
  let d := d.opcodesRep inst
  { d with pcOnRep := true, loopRep := true }

/-! ## Moves -/

/-- On `MR`, `CCR` or `OMR`. -/
def andi : Dsp :=
  let value : U32 := field inst 8 8
  match field inst 0 2 with
  | 0 => d.setReg regSR (d.reg regSR &&& (value <<< 8 ||| 0xff))
  | 1 => d.setReg regSR (d.reg regSR &&& (0xff00 ||| value))
  | 2 => d.setReg regOMR (d.reg regOMR &&& value)
  | _ => d

/-- On `MR`, `CCR` or `OMR`. -/
def ori : Dsp :=
  let value : U32 := field inst 8 8
  match field inst 0 2 with
  | 0 => d.setReg regSR (d.reg regSR ||| value <<< 8)
  | 1 => d.setReg regSR (d.reg regSR ||| value)
  | 2 => d.setReg regOMR (d.reg regOMR ||| value)
  | _ => d

/-- The address register that `lua` steps is left as it was. -/
def lua : Dsp :=
  let srcreg := regR0 + field inst 8 3
  let srcsave := d.reg srcreg
  let (_, _, d) := d.calcEa (field inst 8 5)
  let srcnew := d.reg srcreg
  let d := d.setReg srcreg srcsave
  d.setReg ((if inst.getLsbD 3 then regN0 else regR0) + field inst 0 3) srcnew

/-- Between two registers. -/
def movecReg : Dsp :=
  let numreg2 := field inst 8 6
  let numreg1 := field inst 0 6
  if inst.getLsbD 15 then
    let d := if isAccu numreg2 then
        let (value, limited) := d.pmReadAccu24 numreg2
        (d.setReg numreg1 value).limit limited
      else d.setReg numreg1 (d.reg numreg2)
    d.setReg numreg1 (d.reg numreg1 &&& bitmask (registersMask numreg1))
  else d.writeDest numreg2 (d.reg numreg1)

/-- From or to a short address. -/
def movecAa : Dsp :=
  let numreg := field inst 0 6
  let addr : U32 := field inst 8 6
  let space := spaceOf (field inst 6 1)
  if inst.getLsbD 15 then
    let (value, d) := d.readMemory space addr
    d.setReg numreg (value &&& bitmask (registersMask numreg))
  else d.writeMemory space addr (d.reg numreg)

/-- The value has 8 bits, whatever the width of the register. -/
def movecImm : Dsp := d.setReg (field inst 0 6) (field inst 8 8)

/-- From or to an effective address. -/
def movecEa : Dsp :=
  let numreg := field inst 0 6
  let space := spaceOf (field inst 6 1)
  let (addr, retour, d) := d.calcEa (field inst 8 6)
  if inst.getLsbD 15 then
    let (value, d) := if retour then (addr, d) else d.readMemory space addr
    d.setReg numreg (value &&& bitmask (registersMask numreg))
  else d.writeMemory space addr (d.reg numreg)

/-- The index of `opcodes_movec`: bits 16, 7 and 14. -/
def movecForm : ℕ := field inst 16 1 * 4 + field inst 7 1 * 2 + field inst 14 1

/-- Moves of the control registers. -/
def movec : Dsp :=
  match movecForm inst with
  | 3 => d.movecReg inst
  | 4 => d.movecAa inst
  | 5 => d.movecEa inst
  | 6 | 7 => d.movecImm inst
  | _ => d.undefined

/-- Moves of program memory. -/
def movem : Dsp :=
  let numreg := field inst 0 6
  let (addr, d) :=
    if inst.getLsbD 14 then
      let (addr, _, d) := d.calcEa (field inst 8 6)
      (addr, d)
    else ((field inst 8 6 : U32), d)
  if inst.getLsbD 15 then d.writeDest numreg (d.readMemoryP (addr.setWidth 16))
  else
    let (value, d) := d.readSource numreg
    d.writeMemory .P addr value

/-- The peripheral address of `movep`. -/
def periphAddr : U32 := 0xffc0 + field inst 0 6

/-- A peripheral and a register. -/
def movep0 : Dsp :=
  let space := spaceOf (field inst 16 1)
  let numreg := field inst 8 6
  if inst.getLsbD 15 then
    let (value, d) := d.readSource numreg
    d.writeMemory space (periphAddr inst) value
  else
    let (value, d) := d.readMemory space (periphAddr inst)
    d.writeDest numreg value

/-- A peripheral and program memory. -/
def movep1 : Dsp :=
  let (paddr, _, d) := d.calcEa (field inst 8 6)
  let space := spaceOf (field inst 16 1)
  if inst.getLsbD 15 then d.writeMemory space (periphAddr inst) (d.readMemoryP (paddr.setWidth 16))
  else
    let (value, d) := d.readMemory space (periphAddr inst)
    d.writeMemory .P paddr value

/-- A peripheral and data memory. -/
def movep2 : Dsp :=
  let perspace := spaceOf (field inst 16 1)
  let easpace := spaceOf (field inst 6 1)
  let (addr, retour, d) := d.calcEa (field inst 8 6)
  if inst.getLsbD 15 then
    let (value, d) := if retour then (addr, d) else d.readMemory easpace addr
    d.writeMemory perspace (periphAddr inst) value
  else
    let (value, d) := d.readMemory perspace (periphAddr inst)
    d.writeMemory easpace addr value

/-- Moves of peripherals. -/
def movep : Dsp :=
  match field inst 6 2 with
  | 0 => d.movep0 inst
  | 1 => d.movep1 inst
  | _ => d.movep2 inst

/-- The source and the destination. -/
def registersTcc : ℕ → ℕ × ℕ
  | 0 => (regB, regA)
  | 1 => (regA, regB)
  | 8 => (regX0, regA)
  | 9 => (regX0, regB)
  | 10 => (regY0, regA)
  | 11 => (regY0, regB)
  | 12 => (regX1, regA)
  | 13 => (regX1, regB)
  | 14 => (regY1, regA)
  | 15 => (regY1, regB)
  | _ => (regNULL, regNULL)

/-- Moves under a condition. -/
def tcc : Dsp :=
  if d.calcCc (field inst 12 4) then
    let (regsrc1, regdest1) := registersTcc (field inst 3 4)
    let source := if isAccu regsrc1 then d.accu (regsrc1 % 2) else d.source24 regsrc1
    let d := d.setAccu (regdest1 % 2) source
    if inst.getLsbD 16 then d.setReg (regR0 + field inst 0 3)
      (d.reg (regR0 + field inst 8 3)) else d
  else d

/-- The software interrupt. -/
def swi : Dsp := { d with swiInter := true }

/-! ## Parallel moves -/

/-- A destination of a parallel move, and its value. -/
inductive PmWrite where
  | reg (r : ℕ) (value : U32)
  | mem (space : DspSpace) (addr value : U32)

/-- The write of a register. -/
def pmWritereg (numreg : ℕ) (src : Limbs) : List PmWrite :=
  if isAccu numreg then
    [.reg (regA2 + numreg % 2) src.hi, .reg (regA1 + numreg % 2) src.mid,
      .reg (regA0 + numreg % 2) src.lo]
  else [.reg numreg src.mid]

/-- A 24-bit value for a register: masked to its width, sign extended for an accumulator. -/
def pmValue (numreg : ℕ) (value : U32) : Limbs :=
  ⟨signLimb value, value &&& bitmask (registersMask numreg), 0⟩

/-- A register or a memory word is moved: bit 15 (or 22) tells the direction. -/
def pmMove (toReg : Bool) (space : DspSpace) (addr : U32) (retour : Bool) (numreg : ℕ) :
    Dsp × List PmWrite :=
  if toReg then
    let (value, d) := if retour then (addr, d) else d.readMemory space addr
    (d, pmWritereg numreg (pmValue numreg value))
  else
    let (value, d) := d.readSource numreg
    (d, [.mem space addr value])

/-- Through `X0`, `Y0` or an accumulator. -/
def pm0 : Dsp × List PmWrite :=
  let memspace := field inst 15 1
  let numreg := field inst 16 1
  let (addr, _, d) := d.calcEa (field inst 8 6)
  let (value, limited) := d.pmReadAccu24 numreg
  let d := d.limit limited
  let x := d.source24 (regX0 + memspace * 2)
  (d, [.mem (spaceOf memspace) addr value,
    .reg (regA2 + numreg) x.hi, .reg (regA1 + numreg) x.mid, .reg (regA0 + numreg) x.lo])

/-- `X0`, `X1`, `A`, `B` -/
def xReg : ℕ → ℕ
  | 0 => regX0
  | 1 => regX1
  | 2 => regA
  | _ => regB

/-- `Y0`, `Y1`, `A`, `B` -/
def yReg : ℕ → ℕ
  | 0 => regY0
  | 1 => regY1
  | 2 => regA
  | _ => regB

/-- A memory and two registers. -/
def pm1 : Dsp × List PmWrite :=
  let (addr, retour, d) := d.calcEa (field inst 8 6)
  let memspace := field inst 14 1
  let numreg := if memspace = 1 then yReg (field inst 16 2) else xReg (field inst 18 2)
  let (d, ws) := d.pmMove (inst.getLsbD 15) (spaceOf memspace) addr retour numreg
  let (src2, dest2) :=
    if memspace = 1 then (field inst 19 1, regX0 + field inst 18 1)
      else (field inst 17 1, regY0 + field inst 16 1)
  let (value, limited) := d.pmReadAccu24 (regA + src2)
  (d.limit limited, ws ++ [.reg dest2 (value &&& bitmask (registersMask dest2))])

/-- The value is masked to the width of the source, not of the destination. -/
def pm2_2 : Dsp × List PmWrite :=
  let srcreg := field inst 13 5
  let dstreg := field inst 8 5
  if isAccu srcreg then
    let (value, limited) := d.pmReadAccu24 srcreg
    (d.limit limited, pmWritereg dstreg ⟨signLimb value, value, 0⟩)
  else
    let value := d.reg srcreg &&& bitmask (registersMask srcreg)
    (d, pmWritereg dstreg ⟨if isAccu dstreg then signLimb value else 0, value, 0⟩)

/-- Immediate. -/
def pm3 : Dsp × List PmWrite :=
  let dest := field inst 16 5
  let srcvalue : U32 := field inst 8 8
  let srcvalue :=
    if dest ∈ [regX0, regX1, regY0, regY1, regA, regB] then srcvalue <<< 16 else srcvalue
  (d, pmWritereg dest
    ⟨if isAccu dest then signLimb srcvalue else 0, srcvalue &&& bitmask (registersMask dest), 0⟩)

/-- No move, an update of `Rn`, or registers. -/
def pm2 : Dsp × List PmWrite :=
  if field inst 8 16 = 0x2000 then (d, [])
  else if inst >>> 8 &&& 0xffe0 = 0x2040 then
    let (_, _, d) := d.calcEa (field inst 8 5)
    (d, [])
  else if inst >>> 8 &&& 0xfc00 = 0x2000 then d.pm2_2 inst
  else d.pm3 inst

/-- The halves of a long register. -/
def registersLmove : ℕ → ℕ × ℕ
  | 0 => (regA1, regA0)
  | 1 => (regA1 + 1, regA0 + 1)
  | 2 => (regX1, regX0)
  | 3 => (regY1, regY0)
  | 4 => (regA, regA)
  | 5 => (regB, regB)
  | 6 => (regA, regB)
  | _ => (regB, regA)

/-- The registers of a long move to memory. -/
def pm4xSource (numreg : ℕ) : U32 × U32 × Dsp :=
  let (r0, r1) := registersLmove numreg
  if numreg < 4 then (d.reg r0, d.reg r1, d)
  else if numreg < 6 then
    let (value, limited) := d.pmReadAccu24 r0
    let d := d.limit limited
    let low := if limited then (if value.getLsbD 23 then 0 else 0xffffff)
      else d.reg (regA0 + r0 % 2)
    (value, low, d)
  else
    let (value, limited) := d.pmReadAccu24 r0
    let d := d.limit limited
    let (value', limited) := d.pmReadAccu24 r1
    (value, value', d.limit limited)

/-- A long move. -/
def pm4x (inst addr : U32) : Dsp × List PmWrite :=
  let addr := addr &&& 0xffff
  let numreg := field inst 16 2 + field inst 19 1 * 4
  let (r0, r1) := registersLmove numreg
  if inst.getLsbD 15 then
    let (value, d) := d.readMemory .X addr
    let src := pmValue r0 value
    let (value, d) := d.readMemory .Y addr
    if r0 = r1 then (d, pmWritereg r0 { src with lo := value &&& bitmask (registersMask r1) })
    else (d, pmWritereg r0 src ++ pmWritereg r1 (pmValue r1 value))
  else
    let (value, value', d) := d.pm4xSource numreg
    (d, [.mem .X addr value, .mem .Y addr value'])

/-- `aa` or `ea`, by bit 14 -/
def pmAddr : U32 × Bool × Dsp :=
  if inst.getLsbD 14 then d.calcEa (field inst 8 6) else ((field inst 8 6 : U32), false, d)

/-- A move of X or Y memory. -/
def pm5 : Dsp × List PmWrite :=
  let (addr, retour, d) := d.pmAddr inst
  d.pmMove (inst.getLsbD 15) (spaceOf (field inst 19 1)) addr retour
    (field inst 16 3 + field inst 20 2 * 8)

/-- A move of X, Y or L memory. -/
def pm4 : Dsp × List PmWrite :=
  if field inst 18 1 = 0 ∧ field inst 20 2 = 0 then
    let (addr, _, d) := d.pmAddr inst
    d.pm4x inst addr
  else d.pm5 inst

/-- The two effective addresses of `dsp_pm_8`, on different halves of the address registers. -/
def pm8Ea : ℕ × ℕ :=
  let ea1 := field inst 8 5
  let ea2 := field inst 13 2 + field inst 20 2 * 8 + if ea1 / 4 % 2 = 0 then 4 else 0
  (if ea1 / 8 = 0 then ea1 + 32 else ea1, if ea2 / 8 = 0 then ea2 + 32 else ea2)

/-- Two moves, of X and of Y memory. -/
def pm8 : Dsp × List PmWrite :=
  let (addr1, _, d) := d.calcEa (pm8Ea inst).1
  let (addr2, _, d) := d.calcEa (pm8Ea inst).2
  let (d, ws1) := d.pmMove (inst.getLsbD 15) .X addr1 false (xReg (field inst 18 2))
  let (d, ws2) := d.pmMove (inst.getLsbD 22) .Y addr2 false (yReg (field inst 16 2))
  (d, ws1 ++ ws2)

/-- `dsp_parmove_read`, by `opcodes_parmove`. -/
def parmoveRead : Dsp × List PmWrite :=
  match field inst 20 4 with
  | 0 => d.pm0 inst
  | 1 => d.pm1 inst
  | 2 => d.pm2 inst
  | 3 => d.pm3 inst
  | 4 => d.pm4 inst
  | 5 | 6 | 7 => d.pm5 inst
  | _ => d.pm8 inst

/-- Makes a write. -/
def pmWrite : PmWrite → Dsp
  | .reg r value => d.setReg r value
  | .mem space addr value => d.writeMemory space addr value

/-- Makes the writes in order. -/
def parmoveWrite (ws : List PmWrite) : Dsp := ws.foldl pmWrite d

end Aranym.Dsp
