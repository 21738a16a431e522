/-
  Physical memory as the MMU sees it, transparent translation, and the table walk
  (`memory.h`, `cpummu.cpp`).

  `Config` is what stays fixed while the guest runs: the MMU registers and the
  machine.  The memory that changes is the map `Tables` of long words that hold
  descriptors; an address of a descriptor is a multiple of 4.  A function that can
  throw a bus error is an `EStateM` computation on it.
-/
import Aranym.Lib.Words

namespace Aranym.Mmu

/-- The registers and the machine. -/
structure Config where
  mmuEnabled : Bool
  mmuPagesize8k : Bool
  urp : U32
  srp : U32
  itt0 : U32
  itt1 : U32
  dtt0 : U32
  dtt1 : U32
  fastRAMSize : ℕ
  videoRAMBase : U32
  /-- built with `PROTECT2K` -/
  protect2k : Bool
  /-- `getModule`: there is a hardware register; `HWget_l` and `HWput_l` throw where there is
      none -/
  hwModule : U32 → Bool
  /-- what it holds -/
  hwGetL : U32 → U32

/-- The long words that hold descriptors. -/
abbrev Tables := U32 → U32

/-- Computations on the tables that can throw. -/
abbrev TableM := EStateM Unit Tables

/-! ## Physical memory -/

/-- Where it begins. -/
def fastRAMBegin : ℕ := 0x1000000

/-- Where it ends. -/
def stRAMEnd : ℕ := 0x0e00000

variable (c : Config) (addr : U32) (super : Bool)

/-- Whether memory answers. -/
def testRamBoundary (size : ℕ) (super write : Bool) : Bool :=
  let inVideoRAM :=
    c.videoRAMBase ≤ addr && addr ≤ c.videoRAMBase + 0x00100000 - BitVec.ofNat 32 size
  if addr.toNat ≤ fastRAMBegin + c.fastRAMSize - size then
    if c.protect2k && !super && addr.toNat < 0x800 then false
    else if !write || fastRAMBegin ≤ addr.toNat ||
      (8 ≤ addr.toNat && addr.toNat ≤ stRAMEnd - size) then
      true
    else inVideoRAM
  else inVideoRAM

/-- The addresses above `0xff000000` are those below `0x01000000` again. -/
def physAddr : U32 :=
  if addr < 0xff000000 then addr else addr &&& 0x00ffffff

/-- The range of the hardware registers. -/
def InHwRange : Prop := addr &&& 0xfff00000 = 0x00f00000
deriving Decidable

/-- `phys_get_long`, with `super` for `regs.s`. -/
def physGetLong (addr : U32) : TableM U32 := fun m =>
  let addr := physAddr addr
  if InHwRange addr then
    if c.hwModule addr then .ok (c.hwGetL addr) m else .error () m
  else if testRamBoundary c addr 4 super false then .ok (m addr) m
  else .error () m

/-- A write of a descriptor. -/
def physPutLong (addr l : U32) : TableM Unit := fun m =>
  let addr := physAddr addr
  if InHwRange addr then
    if c.hwModule addr then .ok () m else .error () m
  else if testRamBoundary c addr 4 super true then .ok () (Function.update m addr l)
  else .error () m

/-! ## Transparent translation -/

/-- `TTR_NO_MATCH`, `TTR_NO_WRITE`, `TTR_OK_MATCH` -/
inductive Ttr where
  | noMatch | noWrite | okMatch
  deriving DecidableEq

/-- One register. -/
def doMatchTtr (ttr addr : U32) (super : Bool) : Ttr :=
  if ttr &&& 0x8000 ≠ 0 then
    let msb := ((addr ^^^ ttr) &&& 0xff000000) >>> 24
    let mask := (ttr &&& 0x00ff0000) >>> 16
    if msb &&& ~~~mask = 0 then
      if ttr &&& 0x4000 = 0 ∧ decide (ttr &&& 0x2000 = 0) ≠ !super then .noMatch
      else if ttr &&& 4 ≠ 0 then .noWrite
      else .okMatch
    else .noMatch
  else .noMatch

/-- The first of two registers that matches. -/
def matchPair (ttr0 ttr1 addr : U32) (super : Bool) : Ttr :=
  match doMatchTtr ttr0 addr super with
  | .noMatch => doMatchTtr ttr1 addr super
  | res => res

/-- The pair of registers. -/
def matchTtr (super data : Bool) : Ttr :=
  if data then matchPair c.dtt0 c.dtt1 addr super else matchPair c.itt0 c.itt1 addr super

/-! ## The table walk -/

/-- The address of the root table descriptor. -/
def rootSlot (addr : U32) : U32 :=
  ((if super then c.srp else c.urp) &&& 0xfffffe00#32) ||| ((addr >>> 23) &&& 0x1fc)

/-- The address of the pointer table descriptor, behind the root table descriptor `desc`. -/
def ptrSlot (desc addr : U32) : U32 :=
  (desc &&& 0xfffffe00#32) ||| ((addr >>> 16) &&& 0x1fc)

/-- The address of the page descriptor, behind the pointer table descriptor `desc`. -/
def pageSlot (desc addr : U32) : U32 :=
  if c.mmuPagesize8k then (desc &&& 0xffffff80#32) ||| ((addr >>> 11) &&& 0x7c)
  else (desc &&& 0xffffff00#32) ||| ((addr >>> 10) &&& 0xfc)

/-- A descriptor is stored with the given bits if one of them is clear. -/
def mark (descAddr desc bits : U32) : TableM Unit :=
  if desc &&& bits ≠ bits then physPutLong c super descAddr (desc ||| bits) else pure ()

/-- A page descriptor, with its address and the descriptors of the tables above, or'ed. -/
structure PageDesc where
  descAddr : U32
  desc : U32
  wp : U32

/-- The page descriptor, through an indirect one. -/
def fetchPage (addr wp ptr : U32) : TableM (Option PageDesc) := do
  let desc ← physGetLong c super (pageSlot c ptr addr)
  if desc &&& 3 = 2 then
    let target ← physGetLong c super (desc &&& 0xfffffffc)
    return some ⟨desc &&& 0xfffffffc, target, wp⟩
  else
    return some ⟨pageSlot c ptr addr, desc, wp⟩

/-- From the pointer table on. -/
def fetchPtr (addr root : U32) : TableM (Option PageDesc) := do
  let ptr ← physGetLong c super (ptrSlot root addr)
  if ptr &&& 2 = 0 then
    return none
  else
    mark c super (ptrSlot root addr) ptr 8
    fetchPage c super addr (root ||| ptr) ptr

/-- The first part of `mmu_lookup_pagetable`, down to the page descriptor; `none` if a table
    descriptor is invalid. -/
def fetchPageDesc : TableM (Option PageDesc) := do
  let root ← physGetLong c super (rootSlot c super addr)
  if root &&& 2 = 0 then
    return none
  else
    mark c super (rootSlot c super addr) root 8
    fetchPtr c super addr root

/-- The bits an access sets in a page descriptor: `U`, and `M` for a write that is permitted. -/
def usedBits (write : Bool) (desc : U32) : U32 :=
  if write = true ∧ desc &&& 4 = 0 then 0x18 else 8

/-- The second part: a write protection of the tables is put into the descriptor, and the descriptor
    is stored if the bits of the access are not set yet. -/
def updatePageDesc (super write : Bool) (p : PageDesc) : TableM U32 :=
  if p.desc &&& 1 = 0 then pure p.desc
  else do
    let desc := p.desc ||| (p.wp &&& 4)
    mark c super p.descAddr desc (usedBits write desc)
    return desc ||| usedBits write desc

/-- The page descriptor. -/
def lookupPagetable (super write : Bool) : TableM U32 := do
  match ← fetchPageDesc c addr super with
  | none => return 0
  | some p => updatePageDesc c super write p

end Aranym.Mmu
