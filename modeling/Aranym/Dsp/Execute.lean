/-
  The DSP 56001 emulation: decoding and execution (`dsp_cpu.c`).

  The tables of function pointers become tables of `Handler`s, the names of the
  functions.  `executeInstruction` is one instruction: its execution, the update
  of the program counter with the end of the loops, and the interrupts.
-/
import Aranym.Dsp.Instructions

namespace Aranym.Dsp

open DspCore (dspIPR)

variable (d : Dsp) (inst : U32)

/-! ## Decoding -/

/-- The functions that execute an instruction without parallel moves; `unmatched` where a `switch`
    has no case. -/
inductive Handler where
  | undefined | unmatched
  | andi | bchg | bclr | bset | btst | div | «do» | enddo | illegal | jcc | jclr | jmp | jscc
  | jsclr | jset | jsr | jsset | lua | movec | movem | movep | nop | norm | ori | rep | reset | rti
  | rts | stop | swi | tcc | wait | movePm
  deriving DecidableEq, Repr

/-- The functions that execute an instruction with parallel moves. -/
inductive AluHandler where
  | undefined
  | abs | adc | add | addl | addr | and | asl | asr | clr | cmp | cmpm | eor | lsl | lsr | mac
  | macr | move | mpy | mpyr | neg | not | or | rnd | rol | ror | sbc | sub | subl | subr | tfr
  | tst
  deriving DecidableEq, Repr

/-- The words `00xxxx`. -/
def opcode8h_0 : Handler :=
  if inst ≤ 0x00008c then
    match inst.toNat with
    | 0x000000 => .nop
    | 0x000004 => .rti
    | 0x000005 => .illegal
    | 0x000006 => .swi
    | 0x00000c => .rts
    | 0x000084 => .reset
    | 0x000086 => .wait
    | 0x000087 => .stop
    | 0x00008c => .enddo
    | _ => .unmatched
  else
    match (inst &&& 0xf8).toNat with
    | 0xb8 => .andi
    | 0xf8 => .ori
    | _ => .unmatched

/-- The words `01xxxx`. -/
def opcode8h_1 : Handler :=
  match (inst &&& 0xfff000).toNat with
  | 0x018000 => .div
  | 0x01d000 => .norm
  | _ => .unmatched

/-- The words `04xxxx`. -/
def opcode8h_4 : Handler :=
  match field inst 5 3 with
  | 0 => .lua
  | 5 => .movec
  | _ => .unmatched

/-- The words `06xxxx`. -/
def opcode8h_6 : Handler := if inst.getLsbD 5 then .rep else .do

/-- `opcodes_0809` -/
def opcode8h_8 : Handler :=
  match field inst 12 4 with
  | 4 | 5 | 6 | 7 | 12 | 13 | 14 | 15 => .movep
  | _ => .movePm

/-- The index of `opcodes_0a` and `opcodes_0b`: bits 15, 14 and 7 to 5. -/
def bitForm : ℕ := field inst 14 2 * 8 + field inst 5 3

/-- `opcodes_0a` -/
def opcode8h_a : Handler :=
  match bitForm inst with
  | 0x18 => .jclr
  | 0x19 => .jset
  | 0x1a => .bclr
  | 0x1b => .bset
  | 0x1c => .jmp
  | 0x1d => .jcc
  | 0x1e | 0x1f => .undefined
  | value =>
    match value % 8 with
    | 0 | 2 => .bclr
    | 1 | 3 => .bset
    | 4 | 6 => .jclr
    | _ => .jset

/-- `opcodes_0b`; `11 001` is `jsclr` once more. -/
def opcode8h_b : Handler :=
  match bitForm inst with
  | 0x18 | 0x19 => .jsclr
  | 0x1a => .bchg
  | 0x1b => .btst
  | 0x1c => .jsr
  | 0x1d => .jscc
  | 0x1e | 0x1f => .undefined
  | value =>
    match value % 8 with
    | 0 | 2 => .bchg
    | 1 | 3 => .btst
    | 4 | 6 => .jsclr
    | _ => .jsset

/-- The table of the upper eight bits. -/
def opcodes8h : Handler :=
  match field inst 16 8 with
  | 0x0 => opcode8h_0 inst
  | 0x1 => opcode8h_1 inst
  | 0x2 | 0x3 => .tcc
  | 0x4 => opcode8h_4 inst
  | 0x5 => .movec
  | 0x6 => opcode8h_6 inst
  | 0x7 => .movem
  | 0x8 | 0x9 => opcode8h_8 inst
  | 0xa => opcode8h_a inst
  | 0xb => opcode8h_b inst
  | 0xc => .jmp
  | 0xd => .jsr
  | 0xe => .jcc
  | _ => .jscc

/-- The table up to `3f`. -/
def opcodesAlu003f (value : ℕ) : AluHandler :=
  match value with
  | 0x00 => .move
  | 0x01 | 0x09 => .tfr
  | 0x02 | 0x0a => .addr
  | 0x03 | 0x0b => .tst
  | 0x05 | 0x0d => .cmp
  | 0x06 | 0x0e => .subr
  | 0x07 | 0x0f => .cmpm
  | 0x10 | 0x18 | 0x20 | 0x28 | 0x30 | 0x38 => .add
  | 0x11 | 0x19 => .rnd
  | 0x12 | 0x1a => .addl
  | 0x13 | 0x1b => .clr
  | 0x14 | 0x1c | 0x24 | 0x2c | 0x34 | 0x3c => .sub
  | 0x16 | 0x1e => .subl
  | 0x17 | 0x1f => .not
  | 0x21 | 0x29 | 0x31 | 0x39 => .adc
  | 0x22 | 0x2a => .asr
  | 0x23 | 0x2b => .lsr
  | 0x25 | 0x2d | 0x35 | 0x3d => .sbc
  | 0x26 | 0x2e => .abs
  | 0x27 | 0x2f => .ror
  | 0x32 | 0x3a => .asl
  | 0x33 | 0x3b => .lsl
  | 0x36 | 0x3e => .neg
  | 0x37 | 0x3f => .rol
  | _ => .undefined

/-- The table up to `7f`. -/
def opcodesAlu407f (value : ℕ) : AluHandler :=
  match value % 8 with
  | 0 => .add
  | 1 => .tfr
  | 2 => .or
  | 3 => .eor
  | 4 => .sub
  | 5 => .cmp
  | 6 => .and
  | _ => .cmpm

/-- The table up to `ff`. -/
def opcodesAlu80ff (value : ℕ) : AluHandler :=
  match value % 4 with
  | 0 => .mpy
  | 1 => .mpyr
  | 2 => .mac
  | _ => .macr

/-- The operation beside the moves. -/
def aluHandler : AluHandler :=
  let value := field inst 0 8
  if value < 0x40 then opcodesAlu003f value
  else if value < 0x80 then opcodesAlu407f value
  else opcodesAlu80ff value

/-- What `dsp56k_execute_instruction` calls for a word. -/
inductive Dispatch where
  | single (h : Handler)
  | parallel (h : AluHandler)
  deriving DecidableEq, Repr

/-- With parallel moves or without. -/
def dispatch : Dispatch :=
  if field inst 16 8 < 0x10 ∧ inst &&& 0xfe4000 ≠ 0x080000 then .single (opcodes8h inst)
  else .parallel (aluHandler inst)

/-! ## Execution -/

/-- Executes an instruction. -/
def call : Handler → Dsp
  | .undefined => d.undefined
  | .unmatched => d
  | .andi => d.andi inst
  | .bchg => d.bchg inst
  | .bclr => d.bclr inst
  | .bset => d.bset inst
  | .btst => d.btst inst
  | .div => d.div inst
  | .do => d.do inst
  | .enddo => d.enddo
  | .illegal => d
  | .jcc => d.jcc inst
  | .jclr => d.jclr inst
  | .jmp => d.jmp inst
  | .jscc => d.jscc inst
  | .jsclr => d.jsclr inst
  | .jset => d.jset inst
  | .jsr => d.jsr inst
  | .jsset => d.jsset inst
  | .lua => d.lua inst
  | .movec => d.movec inst
  | .movem => d.movem inst
  | .movep => d.movep inst
  | .nop => d
  | .norm => d.norm inst
  | .ori => d.ori inst
  | .rep => d.rep inst
  | .reset => d
  | .rti => d.rti
  | .rts => d.rts
  | .stop => d
  | .swi => d.swi
  | .tcc => d.tcc inst
  | .wait => d
  | .movePm =>
    let (d, ws) := d.parmoveRead inst
    d.parmoveWrite ws

/-- Executes an operation. -/
def callAlu : AluHandler → Dsp
  | .undefined => d.undefined
  | .abs => d.abs inst
  | .adc => d.adc inst
  | .add => d.add inst
  | .addl => d.addl inst
  | .addr => d.addr inst
  | .and => d.and inst
  | .asl => d.asl inst
  | .asr => d.asr inst
  | .clr => d.clr inst
  | .cmp => d.cmp inst
  | .cmpm => d.cmpm inst
  | .eor => d.eor inst
  | .lsl => d.lsl inst
  | .lsr => d.lsr inst
  | .mac => d.mac inst
  | .macr => d.macr inst
  | .move => d
  | .mpy => d.mpy inst
  | .mpyr => d.mpyr inst
  | .neg => d.neg inst
  | .not => d.not inst
  | .or => d.or inst
  | .rnd => d.rnd inst
  | .rol => d.rol inst
  | .ror => d.ror inst
  | .sbc => d.sbc inst
  | .sub => d.sub inst
  | .subl => d.subl inst
  | .subr => d.subr inst
  | .tfr => d.tfr inst
  | .tst => d.tst inst

/-- The word at `pc`. -/
def curInst : U32 := d.readMemoryP d.pc

/-- The instruction is decoded and executed. -/
def exec (d : Dsp) : Dsp :=
  let inst := d.curInst
  let d := { d with curInstLen := 1 }
  match dispatch inst with
  | .single h => d.call inst h
  | .parallel h =>
    let (d, ws) := d.parmoveRead inst
    (d.callAlu inst h).parmoveWrite ws

/-! ## Program counter -/

/-- The repeated instruction stays current until `LC` is 0. -/
def updateRep : Dsp :=
  if d.loopRep then
    if d.pcOnRep then
      let d := if d.reg regLC = 0 then d.setReg regLC 0x010000 else d
      { d with pcOnRep := false }
    else
      let d := d.setReg regLC ((d.reg regLC - 1) &&& 0xffff)
      if d.reg regLC ≠ 0 then { d with curInstLen := 0 }
      else { d.setReg regLC (d.reg regLCSAVE) with loopRep := false }
  else d

/-- The last instruction of a `DO` loop has been executed. -/
def atLoopEnd : Prop := d.lf = true ∧ d.pc.setWidth 32 = d.reg regLA + 1
deriving Decidable

/-- The end of a `DO` loop is tested with the updated `pc`. -/
def updateLoop : Dsp :=
  if d.atLoopEnd then
    let d := d.setReg regLC ((d.reg regLC - 1) &&& 0xffff)
    if d.reg regLC = 0 then d.popSr.popLoop
    else { d.useStack (d.reg regSSH) 0 with pc := d.stack 0 (d.reg regSSH).toNat }
  else d

/-- `dsp_core->pc += cur_inst_len` -/
def advance : Dsp := { d with pc := d.pc + d.curInstLen }

/-- Repetitions, `pc` and loops. -/
def postexecuteUpdatePc : Dsp := d.updateRep.advance.updateLoop

/-! ## Interrupts -/

/-- `dsp_ssi_interrupts`: the priority of the interrupt to take, 99 for none. -/
def ssiInterrupts : U32 × Dsp :=
  let crb := d.core.periph .X 0x2d
  let sr := d.core.periph .X 0x2e
  let ipl := d.core.periph .X dspIPR >>> 12 &&& 3
  let raise (d : Dsp) (fetch : U32) : Dsp :=
    { d with core := { d.core with interruptInstrFetch := fetch } }
  if crb.getLsbD 15 ∧ sr &&& 0xa0 = 0xa0 then
    (ipl, raise { d with core := d.core.setPeriph .X 0x2e (sr &&& 0xdf) } 0x0e)
  else if crb.getLsbD 15 ∧ sr &&& 0xa0 = 0x80 then (ipl, raise d 0x0c)
  else if crb.getLsbD 14 ∧ sr &&& 0x50 = 0x50 then
    (ipl, raise { d with core := d.core.setPeriph .X 0x2e (sr &&& 0xef) } 0x12)
  else if crb.getLsbD 14 ∧ sr &&& 0x50 = 0x40 then (ipl, raise d 0x10)
  else (99, d)

/-- The interrupts of the host port. -/
def hiInterrupts (d : Dsp) : U32 × Dsp :=
  let r := d.core.hiInterrupts
  (r.1, { d with core := r.2 })

/-- The peripherals, the one with the higher level first. -/
def periphInterrupts (ipl : U32) : U32 × Dsp :=
  let iplHi := d.core.periph .X dspIPR >>> 10 &&& 3
  let iplSsi := d.core.periph .X dspIPR >>> 12 &&& 3
  let hi (d : Dsp) := if iplHi ≥ ipl then d.hiInterrupts else (99, d)
  let ssi (d : Dsp) := if iplSsi ≥ ipl then d.ssiInterrupts else (99, d)
  if iplHi ≥ iplSsi then
    let r := hi d
    if r.1 = 99 then ssi r.2 else r
  else
    let r := ssi d
    if r.1 = 99 then hi r.2 else r

/-- The interrupt to raise: its level, 99 for none, and its vector in `interruptInstrFetch`. -/
def raiseInterrupt : U32 × Dsp :=
  if (d.reg regSR).getLsbD 13 then (3, { d with core := { d.core with interruptInstrFetch := 4 } })
  else if d.swiInter then
    (3, { d with swiInter := false, core := { d.core with interruptInstrFetch := 6 } })
  else
    let ipl := d.reg regSR >>> 8 &&& 3
    if ipl = 3 then (99, d) else d.periphInterrupts ipl

/-- The test for a `jsr` in the vector. -/
def looksLikeJsr (instr : U32) : Prop := field instr 16 8 = 0xd ∨ bitForm instr = 0x1c
deriving Decidable

/-- The vector of the interrupt that is raised. -/
def vector : U16 := d.core.interruptInstrFetch.setWidth 16

/-- A fast interrupt executes the two words of the vector, a long one calls its subroutine. -/
def takeInterrupt (ipl : U32) : Dsp :=
  let instr1 := d.readMemoryP d.vector
  let instr2 := d.readMemoryP (d.vector + 1)
  if looksLikeJsr instr1 ∨ looksLikeJsr instr2 then
    let d := { d with interruptState := .long }
    let d := d.stackPush (d.pc.setWidth 32) (d.reg regSR)
    let d := d.setReg regSR (d.reg regSR &&& (0xffff - 0xaf00 : U32) ||| ipl <<< 8)
    { d with
      pc := d.vector, core := { d.core with interruptInstrFetch := -1 }, interruptSavePc := -1 }
  else
    { d with interruptState := .fast, interruptSavePc := d.pc.setWidth 32, pc := d.vector }

/-- A fast interrupt ends when its two words have been executed. -/
def endFast : Dsp :=
  let pc := d.pc.setWidth 32
  let last := d.core.interruptInstrFetch + 2
  if pc ≥ last then
    let d := if pc = last then { d with pc := d.interruptSavePc.setWidth 16 } else d
    { d with
      core := { d.core with interruptInstrFetch := -1 }
      interruptState := .none, interruptSavePc := -1 }
  else d

/-- After an instruction. -/
def postexecuteInterrupts : Dsp :=
  if d.loopRep then d
  else if d.interruptState = .fast then d.endFast
  else
    let (ipl, d) := d.raiseInterrupt
    if ipl ≠ 99 then d.takeInterrupt ipl else d

/-- One instruction. -/
def executeInstruction : Dsp := d.exec.postexecuteUpdatePc.postexecuteInterrupts

end Aranym.Dsp
