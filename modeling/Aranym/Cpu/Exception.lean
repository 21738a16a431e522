/-
  The 68040's status register, stack pointers and exceptions (`newcpu.cpp`).

  `Cpu` is the part of `regstruct` (with `fixup` and the data of address errors)
  that these functions use: the data registers and the cache and MMU registers
  are left out.  A flag of type `flagtype` is a `Bool`.  Memory is a parameter, a
  `Bus` whose accesses can throw a bus error; it may also change the registers
  that describe the last fault.
-/
import Aranym.Lib.Fallible
import Aranym.Lib.Words

namespace Aranym

open Lib

/-- The registers. -/
structure Cpu where
  areg : Fin 8 → U32
  usp : U32
  isp : U32
  msp : U32
  sr : U16
  t1 : Bool
  t0 : Bool
  s : Bool
  m : Bool
  intmask : ℕ
  xflg : Bool
  nflg : Bool
  zflg : Bool
  vflg : Bool
  cflg : Bool
  pc : U32
  faultPc : U32
  vbr : U32
  /-- what `mmu_set_super` was last told -/
  mmuSuper : Bool
  spcflagTrace : Bool
  spcflagDotrace : Bool
  spcflagJitEndCompile : Bool
  /-- `fixup`: an address register to restore when the instruction is abandoned -/
  fixupFlag : Bool
  fixupReg : Fin 8
  fixupValue : U32
  lastAddrForException3 : U32
  lastFaultForException3 : U32
  deriving Inhabited

/-- The registers that describe the last bus error. -/
structure FaultRegs where
  mmuFaultAddr : U32
  mmuSsw : U16
  wb3Data : U32
  wb3Status : U16
  deriving Inhabited

/-- The memory of the guest, as supervisor code sees it; an access throws or returns. -/
structure Bus (M : Type) where
  putWord : U32 → U16 → EStateM Unit (FaultRegs × M) Unit
  putLong : U32 → U32 → EStateM Unit (FaultRegs × M) Unit
  getLong : U32 → EStateM Unit (FaultRegs × M) U32

/-- Registers and memory. -/
structure Machine (M : Type) where
  cpu : Cpu
  fault : FaultRegs
  mem : M

/-- Code that can fault. -/
abbrev CpuM (M : Type) := EStateM Unit (Machine M)

variable (c : Cpu)

namespace Cpu

/-- The stack pointer. -/
def a7 : U32 := c.areg 7

/-- Sets the stack pointer. -/
def setA7 (v : U32) : Cpu := { c with areg := Function.update c.areg 7 v }

/-! ## The status register -/

/-- Flag `b` at bit `k`. -/
def flag (b : Bool) (k : ℕ) : U16 := (BitVec.ofBool b).setWidth 16 <<< k

/-- Packs `sr`. -/
def makeSR : Cpu :=
  let sr := flag c.t1 15 ||| flag c.t0 14 ||| flag c.s 13 ||| flag c.m 12 |||
    BitVec.ofNat 16 (c.intmask <<< 8) ||| flag c.xflg 4 ||| flag c.nflg 3 ||| flag c.zflg 2 |||
    flag c.vflg 1 ||| flag c.cflg 0
  { c with sr := sr }

/-- The part of `MakeFromSR` that unpacks `sr`. -/
def unpackSR : Cpu :=
  { c with
    t1 := c.sr.getLsbD 15, t0 := c.sr.getLsbD 14, s := c.sr.getLsbD 13, m := c.sr.getLsbD 12
    mmuSuper := c.sr.getLsbD 13
    intmask := ((c.sr >>> 8) &&& 7).toNat
    xflg := c.sr.getLsbD 4, nflg := c.sr.getLsbD 3, zflg := c.sr.getLsbD 2, vflg := c.sr.getLsbD 1
    cflg := c.sr.getLsbD 0 }

/-- The part of `MakeFromSR` that exchanges the stacks, after `S` and `M` were `olds` and `oldm`. -/
def switchStack (olds oldm : Bool) : Cpu :=
  if olds ≠ c.s then
    if olds then
      if oldm then { c with msp := c.a7 }.setA7 c.usp else { c with isp := c.a7 }.setA7 c.usp
    else { c with usp := c.a7 }.setA7 (if c.m then c.msp else c.isp)
  else if olds ∧ oldm ≠ c.m then
    if oldm then { c with msp := c.a7 }.setA7 c.isp else { c with isp := c.a7 }.setA7 c.msp
  else c

/-- Unpacks `sr`. -/
def makeFromSR : Cpu :=
  let c' := c.unpackSR.switchStack c.s c.m
  { c' with spcflagTrace := c'.t1 || c'.t0 }

/-! ## Moves to and from control registers -/

/-- The control registers of `movec` that are not the MMU's or the cache's. -/
inductive CtlReg where
  | usp | vbr | msp | isp

/-- `MOVEC` to a register. -/
def move2c (v : U32) : CtlReg → Cpu
  | .usp => { c with usp := v }
  | .vbr => { c with vbr := v }
  | .msp => let c := { c with msp := v }; if c.m then c.setA7 c.msp else c
  | .isp => let c := { c with isp := v }; if !c.m then c.setA7 c.isp else c

/-! ## Exceptions -/

/-- The abandoned instruction's address register gets its old value back. -/
def applyFixup : Cpu :=
  if c.fixupFlag then
    { c with areg := Function.update c.areg c.fixupReg c.fixupValue, fixupFlag := false }
  else c

/-- `A7` when the pending fixup has been made. -/
def fixedA7 : U32 :=
  if c.fixupFlag ∧ c.fixupReg = 7 then c.fixupValue else c.a7

/-- To supervisor mode. -/
def enterSuper : Cpu :=
  if c.s then c
  else
    { { c with usp := c.a7 }.setA7 (if c.m then c.msp else c.isp) with s := true, mmuSuper := true }

end Cpu

section
variable {M : Type} (bus : Bus M)

/-- An access to memory. -/
def onBus {α : Type} (x : EStateM Unit (FaultRegs × M) α) : CpuM M α := fun k =>
  match x (k.fault, k.mem) with
  | .ok a (f, m) => .ok a { k with fault := f, mem := m }
  | .error e (f, m) => .error e { k with fault := f, mem := m }

/-- Changes the registers. -/
def onCpu (g : Cpu → Cpu) : CpuM M Unit := modify fun k => { k with cpu := g k.cpu }

/-- Pushes a word. -/
def excPushWord (w : U16) : CpuM M Unit := do
  onCpu fun c => c.setA7 (c.a7 - 2)
  onBus (bus.putWord (← get).cpu.a7 w)

/-- Pushes a longword. -/
def excPushLong (l : U32) : CpuM M Unit := do
  onCpu fun c => c.setA7 (c.a7 - 4)
  onBus (bus.putLong (← get).cpu.a7 l)

/-- What `exc_make_frame` pushes in front of the four words that every frame has. -/
def excFrameExtra (format : ℕ) (x0 x1 : U32) : CpuM M Unit :=
  match format with
  | 4 => do excPushLong bus x1; excPushLong bus x0
  | 3 | 2 => excPushLong bus x0
  | _ => pure ()

/-- Pushes a frame. -/
def excMakeFrame (format : ℕ) (sr : U16) (currpc : U32) (nr : ℕ) (x0 x1 : U32) :
    CpuM M Unit := do
  excFrameExtra bus format x0 x1
  excPushWord bus (BitVec.ofNat 16 ((format <<< 12) + nr * 4))
  excPushLong bus currpc
  excPushWord bus sr

/-- The frame of a bus error on a 68040. -/
def busErrorFrame : CpuM M Unit := do
  excPushLong bus 0 -- PD3
  excPushLong bus 0 -- PD2
  excPushLong bus 0 -- PD1
  excPushLong bus 0 -- PD0/WB1D
  excPushLong bus 0 -- WB1A
  excPushLong bus 0 -- WB2D
  excPushLong bus 0 -- WB2A
  excPushLong bus (← get).fault.wb3Data
  excPushLong bus (← get).fault.mmuFaultAddr
  excPushLong bus (← get).fault.mmuFaultAddr
  excPushWord bus 0 -- WB1S
  excPushWord bus 0 -- WB2S
  excPushWord bus (← get).fault.wb3Status
  modify fun k => { k with fault := { k.fault with wb3Status := 0 } }
  excPushWord bus (← get).fault.mmuSsw
  excPushLong bus (← get).fault.mmuFaultAddr
  excMakeFrame bus 7 (← get).cpu.sr (← get).cpu.faultPc 2 0 0

variable (nr : ℕ)

/-- The vectors of interrupts. -/
def IsInterrupt : Prop := 24 ≤ nr ∧ nr < 32
deriving Decidable

/-- The two frames of an interrupt taken with `M` set: one on the master stack, a throwaway one on
    the interrupt stack. -/
def throwawayFrames (currpc : U32) : CpuM M Unit := do
  excMakeFrame bus 0 (← get).cpu.sr currpc nr 0 0
  onCpu fun c => { c with sr := c.sr ||| 1#16 <<< 13 }
  onCpu fun c => { c with msp := c.a7 }.setA7 c.isp
  excMakeFrame bus 1 (← get).cpu.sr currpc nr 0 0

/-- The frames of the other exceptions. -/
def otherFrames (oldpc currpc : U32) : CpuM M Unit := do
  let c := (← get).cpu
  if nr = 3 then
    excMakeFrame bus 2 c.sr c.lastAddrForException3 nr (c.lastFaultForException3 &&& 0xfffffffe) 0
  else if nr = 5 ∨ nr = 6 ∨ nr = 7 ∨ nr = 9 then excMakeFrame bus 2 c.sr currpc nr oldpc 0
  else if c.m ∧ IsInterrupt nr then throwawayFrames bus nr currpc
  else excMakeFrame bus 0 c.sr currpc nr 0 0

/-- The vector is fetched and trace mode and `M` are left. -/
def enterHandler : CpuM M Unit := do
  let pc ← onBus (bus.getLong ((← get).cpu.vbr + 4 * BitVec.ofNat 32 nr))
  onCpu fun c => { c with pc := pc, spcflagJitEndCompile := true }
  onCpu fun c => { c with t1 := false, t0 := false, m := false
                          spcflagTrace := false, spcflagDotrace := false }

/-- How `Exception` returns; it can also throw a bus error. -/
inductive ExcResult where
  | taken
  | doubleBusError
  deriving DecidableEq

/-- `Exception(nr, oldpc)`. -/
def exception (oldpc : U32) : CpuM M ExcResult := do
  let currpc := (← get).cpu.pc
  onCpu fun c => c.makeSR.applyFixup.enterSuper
  if nr = 2 then
    if ← attempt (busErrorFrame bus) then enterHandler bus nr; return .taken
    else return .doubleBusError
  else
    otherFrames bus nr oldpc currpc
    enterHandler bus nr
    return .taken

/-- `Interrupt`, for an autovector interrupt of level `nr`. -/
def interrupt : CpuM M ExcResult := do
  let r ← exception bus (nr + 24) 0
  onCpu fun c => { c with intmask := nr }
  return r

/-- `SCCInterrupt`; `nr` is the vector the SCC supplied. -/
def sccInterrupt : CpuM M ExcResult := do
  let r ← exception bus nr 0
  onCpu fun c => { c with intmask := 5 }
  return r

/-- `MFPInterrupt`; `nr` is the vector the MFP supplied. -/
def mfpInterrupt : CpuM M ExcResult := do
  let r ← exception bus nr 0
  onCpu fun c => { c with intmask := 6 }
  return r

end

end Aranym
