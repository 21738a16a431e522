/-
  The DSP 56001 emulation: the processor (`dsp_cpu.c`).

  `Dsp` is `dsp_core_t` with the state of the interpreter: the fields that the
  host port does not use, and the static variables of `dsp_cpu.c`.  The word of
  the current instruction (`cur_inst`) is a parameter `inst` of what executes it.
  `pauseThread` only makes the thread wait, so it has no counterpart here.
-/
import Aranym.Dsp.Core
import Mathlib.Data.Nat.Bitwise

namespace Aranym

open DspCore (regOMR regM0)

/-- `DSP_INTERRUPT_NONE`, `DSP_INTERRUPT_FAST`, `DSP_INTERRUPT_LONG`. -/
inductive DspInterrupt where
  | none | fast | long
  deriving DecidableEq, Repr, Inhabited

/-- The processor. -/
structure Dsp where
  core : DspCore
  pc : U16
  /-- `stack[0]` (ssh) and `stack[1]` (ssl), of 15 words each -/
  stack : ℕ → ℕ → U16
  /-- executing `REP` -/
  loopRep : Bool
  swiInter : Bool
  interruptState : DspInterrupt
  interruptSavePc : U32
  /-- length of the current instruction; 0 for a jump -/
  curInstLen : ℕ
  /-- `pc` is on the `REP` itself -/
  pcOnRep : Bool
  /-- An element outside of the two arrays of `stack` has been used, which C leaves undefined. -/
  stackFault : Bool
  deriving Inhabited

namespace Dsp

variable (d : Dsp)

/-! ## Registers -/

/-- `DSP_REG_X0`. -/
def regX0 : ℕ := 0x04
/-- `DSP_REG_X1`. -/
def regX1 : ℕ := 0x05
/-- `DSP_REG_Y0`. -/
def regY0 : ℕ := 0x06
/-- `DSP_REG_Y1`. -/
def regY1 : ℕ := 0x07
/-- `DSP_REG_A0`. -/
def regA0 : ℕ := 0x08
/-- `DSP_REG_A2`. -/
def regA2 : ℕ := 0x0a
/-- `DSP_REG_A1`. -/
def regA1 : ℕ := 0x0c
/-- `DSP_REG_A`. -/
def regA : ℕ := 0x0e
/-- `DSP_REG_B`. -/
def regB : ℕ := 0x0f
/-- `DSP_REG_R0`. -/
def regR0 : ℕ := 0x10
/-- `DSP_REG_N0`. -/
def regN0 : ℕ := 0x18
/-- `DSP_REG_SR`. -/
def regSR : ℕ := 0x39
/-- `DSP_REG_SP`. -/
def regSP : ℕ := 0x3b
/-- `DSP_REG_SSH`. -/
def regSSH : ℕ := 0x3c
/-- `DSP_REG_SSL`. -/
def regSSL : ℕ := 0x3d
/-- `DSP_REG_LA`. -/
def regLA : ℕ := 0x3e
/-- `DSP_REG_LC`. -/
def regLC : ℕ := 0x3f
/-- `DSP_REG_NULL`. -/
def regNULL : ℕ := 0x00
/-- `DSP_REG_LCSAVE`. -/
def regLCSAVE : ℕ := 0x30

/-- The width of a register; 0 for a number that is no register. -/
def registersMask (r : ℕ) : ℕ :=
  [0, 0, 0, 0, 24, 24, 24, 24, 24, 24, 8, 8, 24, 24, 24, 24,
   16, 16, 16, 16, 16, 16, 16, 16, 16, 16, 16, 16, 16, 16, 16, 16,
   16, 16, 16, 16, 16, 16, 16, 16, 0, 0, 0, 0, 0, 0, 0, 0,
   0, 0, 0, 0, 0, 0, 0, 0, 0, 16, 8, 6, 6, 6, 16, 16].getD r 0

/-- `BITMASK(x)` -/
def bitmask (n : ℕ) : U32 := 1#32 <<< n - 1

/-- `(inst >> lo) & BITMASK(n)` -/
def field (inst : U32) (lo n : ℕ) : ℕ := (inst >>> lo).toNat % 2 ^ n

/-- `(value >> n) & 1` -/
def bitAt (value : U32) (n : ℕ) : U32 := (value >>> n) &&& 1

/-- The accumulators `A` and `B`. -/
def isAccu (r : ℕ) : Prop := r = regA ∨ r = regB
deriving Decidable

/-- Reads a register. -/
def reg (r : ℕ) : U32 := d.core.registers r

/-- Writes a register. -/
def setReg (r : ℕ) (v : U32) : Dsp :=
  { d with core := { d.core with registers := Function.update d.core.registers r v } }

/-- `registers[SR] &= BITMASK(16)-clear; registers[SR] |= set;` -/
def updateSr (clear set : U32) : Dsp :=
  d.setReg regSR (d.reg regSR &&& (0xffff - clear) ||| set)

/-- The loop flag. -/
def lf : Bool := (d.reg regSR).getLsbD 15

/-- `DSP_SR_S1` and `DSP_SR_S0` -/
def scaling : ℕ := field (d.reg regSR) 10 2

/-- `dsp_core_reset`, the part of the processor. -/
def reset (d : Dsp) : Dsp :=
  { d with
    core := d.core.reset
    pc := 0
    stack := fun _ _ => 0
    loopRep := false
    swiInter := false
    interruptState := .none
    interruptSavePc := -1 }

/-! ## Memory -/

/-- `memspace` 0 and 1 -/
def spaceOf (memspace : ℕ) : DspSpace := if memspace = 0 then .X else .Y

/-- Program memory. -/
def readMemoryP (d : Dsp) (address : U16) : U32 := d.core.readMemoryP address

/-- Reads a word. -/
def readMemory (d : Dsp) (space : DspSpace) (address : U32) : U32 × Dsp :=
  let r := d.core.readMemory space (address.setWidth 16)
  (r.1, { d with core := r.2 })

/-- Writes a word. -/
def writeMemory (space : DspSpace) (address value : U32) : Dsp :=
  { d with core := d.core.writeMemoryRaw space (address.setWidth 16) value }

/-! ## The system stack -/

/-- The use of an element of `stack[0]` and one of `stack[1]`. -/
def useStack (ssh ssl : U32) : Dsp :=
  { d with stackFault := d.stackFault || 15 ≤ ssh.toNat || 15 ≤ ssl.toNat }

/-- Writes an entry. -/
def setStack (k : ℕ) (i v : U32) : Dsp :=
  { d with
    stack := Function.update d.stack k (Function.update (d.stack k) i.toNat (v.setWidth 16)) }

/-- Pushes a pair. -/
def stackPush (curpc cursr : U32) : Dsp :=
  if d.reg regSP = 0x0f then d
  else
    let d := d.setReg regSP (d.reg regSP + 1)
    let d := d.setReg regSSH (d.reg regSSH + 1)
    let d := d.setReg regSSL (d.reg regSSL + 1)
    let d := d.useStack (d.reg regSSH) (d.reg regSSL)
    (d.setStack 0 (d.reg regSSH) curpc).setStack 1 (d.reg regSSL) cursr

/-- `dsp_stack_pop`: what `*newpc` and `*newsr` get, and the state after the index registers have
    been decremented; none if the stack is empty. -/
def stackTop : Option (U32 × U32 × Dsp) :=
  if d.reg regSP = 0 then none
  else
    let newpc := (d.stack 0 (d.reg regSSH).toNat).setWidth 32
    let newsr := (d.stack 1 (d.reg regSSL).toNat).setWidth 32
    some (newpc, newsr, d.useStack (d.reg regSSH) (d.reg regSSL))

/-- Drops a pair. -/
def stackDrop : Dsp :=
  let d := d.setReg regSP (d.reg regSP - 1)
  let d := d.setReg regSSH (d.reg regSSH - 1)
  d.setReg regSSL (d.reg regSSL - 1)

/-- `dsp_stack_pop(&newpc, &registers[SR])`, with `newpc` not used. -/
def popSr : Dsp :=
  match d.stackTop with
  | none => d
  | some (_, sr, d) => (d.setReg regSR sr).stackDrop

/-- `dsp_stack_pop(&registers[LA], &registers[LC])` -/
def popLoop : Dsp :=
  match d.stackTop with
  | none => d
  | some (la, lc, d) => ((d.setReg regLA la).setReg regLC lc).stackDrop

/-- `dsp_stack_pop` into two variables that are 0 before. -/
def popPair : U32 × U32 × Dsp :=
  match d.stackTop with
  | none => (0, 0, d)
  | some (pc, sr, d) => (pc, sr, d.stackDrop)

/-! ## Effective addresses -/

/-- The number of bits to reverse: up to and with the lowest bit of `Nn`. -/
def revBits (value : U32) : ℕ :=
  ((List.range 16).find? fun i => value.getLsbD i).getD 16 + 1

/-- The lower `revbits` bits of `r` in the opposite order, below the others. -/
def reverseBits (revbits : ℕ) (r : U32) : U32 :=
  (List.range revbits).foldl
    (fun value i => if r.getLsbD i then value ||| 1#32 <<< (revbits - i - 1) else value)
    (r &&& (bitmask 16 - bitmask revbits))

/-- With carries to the right. -/
def updateRnBitreverse (numreg : ℕ) : Dsp :=
  let revbits := revBits (d.reg (regN0 + numreg))
  let r := d.reg (regR0 + numreg)
  let value := (reverseBits revbits r + 1) &&& bitmask revbits
  let r := r &&& (bitmask 16 - bitmask revbits) ||| value
  d.setReg (regR0 + numreg) (reverseBits revbits r)

/-- `while (bufsize < modulo) { bufsize <<= 1; bufmask <<= 1; }` -/
def bufferSize (modulo : U16) : ℕ → U16 × U16 → U16 × U16
  | 0, b => b
  | n + 1, (bufsize, bufmask) =>
    if bufsize < modulo then bufferSize modulo n (bufsize <<< 1, bufmask <<< 1)
      else (bufsize, bufmask)

/-- `while (modifier>bufsize) { r_reg += bufsize; modifier -= bufsize; }` -/
def stepUp (bufsize : U16) : ℕ → U16 × U16 → U16 × U16
  | 0, b => b
  | n + 1, (r, modifier) =>
    if modifier.toInt > bufsize.toNat then stepUp bufsize n (r + bufsize, modifier - bufsize)
    else (r, modifier)

/-- `while (modifier<-bufsize) { r_reg -= bufsize; modifier += bufsize; }` -/
def stepDown (bufsize : U16) : ℕ → U16 × U16 → U16 × U16
  | 0, b => b
  | n + 1, (r, modifier) =>
    if modifier.toInt < -bufsize.toNat then stepDown bufsize n (r - bufsize, modifier + bufsize)
    else (r, modifier)

/-- `dsp_update_rn_modulo`.  `modulo` is between 2 and 32768, so that the loops end within their
    bounds. -/
def updateRnModulo (numreg : ℕ) (modifier : U16) : Dsp :=
  let modulo := (d.reg (regM0 + numreg) + 1).setWidth 16
  let (bufsize, bufmask) := bufferSize modulo 16 (1, 0xffff)
  let lobound := (d.reg (regR0 + numreg)).setWidth 16 &&& bufmask
  let hibound := lobound + modulo - 1
  let r := (d.reg (regR0 + numreg)).setWidth 16
  let rm := if modifier.toInt > modulo.toNat then
      stepDown bufsize 16384 (stepUp bufsize 16384 (r, modifier))
    else (r, modifier)
  let r := rm.1 + rm.2
  let r :=
    if modifier.toInt ≠ modulo.toNat then
      -- `Sint16` against `Uint16`
      if r.toInt > hibound.toNat then r - modulo
      else if r.toInt < lobound.toNat then r + modulo
      else r
    else r
  d.setReg (regR0 + numreg) (r.setWidth 32)

/-- The update of `Rn`. -/
def updateRn (numreg : ℕ) (modifier : U16) : Dsp :=
  let m := (d.reg (regM0 + numreg)).setWidth 16
  if m = 0 then d.updateRnBitreverse numreg
  else if m ≤ 32767 then d.updateRnModulo numreg modifier
  else if m = 65535 then
    d.setReg (regR0 + numreg) (((d.reg (regR0 + numreg)).setWidth 16 + modifier).setWidth 32)
  else d

/-- `dsp_calc_ea`: the address, and whether it is an immediate value. -/
def calcEa (eaMode : ℕ) : U32 × Bool × Dsp :=
  let numreg := eaMode % 8
  let r := d.reg (regR0 + numreg)
  let n := (d.reg (regN0 + numreg)).setWidth 16
  match eaMode / 8 % 8 with
  | 0 => (r, false, d.updateRn numreg (-n))
  | 1 => (r, false, d.updateRn numreg n)
  | 2 => (r, false, d.updateRn numreg (-1))
  | 3 => (r, false, d.updateRn numreg 1)
  | 4 => (r, false, d)
  | 5 =>
    let d := d.updateRn numreg n
    (d.reg (regR0 + numreg), false, d.setReg (regR0 + numreg) r)
  | 6 => (d.readMemoryP (d.pc + 1), numreg ≠ 0, { d with curInstLen := d.curInstLen + 1 })
  | _ =>
    let d := d.updateRn numreg (-1)
    (d.reg (regR0 + numreg), false, d)

/-! ## Condition codes -/

/-- The condition holds. -/
def calcCc (ccCode : ℕ) : Bool :=
  let c (i : ℕ) : Bool := (d.reg regSR).getLsbD i
  let nv := c 3 ^^ c 1
  let value := match ccCode % 8 with
    | 0 => c 0
    | 1 => nv
    | 2 => c 2
    | 3 => c 3
    | 4 => c 2 || !c 4 && !c 5
    | 5 => c 5
    | 6 => c 6
    | _ => c 2 || nv
  value == (ccCode / 8 % 2 == 1)

end Dsp

end Aranym
