/-
  The checks of the translation cache of the JIT compiler
  (`compiler/compemu_support.cpp`).

  A block is native code for a trace of instructions.  After a lazy flush a
  block has to be checked before it runs again, by two checksums over the memory
  regions of its trace, and so have the blocks that it jumps to.

  Memory is a function of host addresses.  A block is found by the address of
  its first instruction; the lines of the hash table and the optimisation levels
  are left out.  `USE_CHECKSUM_INFO` is on and `USE_MATCH` is off.
-/
import Aranym.Lib.Forest
import Aranym.Lib.Words

namespace Aranym.Jit

open Lib

/-- The host's memory. -/
abbrev Mem := ℕ → U8

variable (mem : Mem)

/-- `MAX_CHECKSUM_LEN`. -/
def maxChecksumLen : ℤ := 2048

/-! ## Checksums -/

/-- A region. -/
structure ChecksumInfo where
  startP : ℕ
  length : U32

/-- The longword at a host address. -/
def long (pos : ℕ) : U32 :=
  mem (pos + 3) ++ mem (pos + 2) ++ mem (pos + 1) ++ mem pos

/-- The bytes from the longword on in which the region starts. -/
def ChecksumInfo.len (csi : ChecksumInfo) : ℤ := csi.length.toInt + (csi.startP % 4 : ℕ)

/-- The loop over `n` longwords: `len` goes down by 4 as long as it is positive. -/
def checksumLoop (mem : Mem) : ℕ → ℕ → U32 × U32 → U32 × U32
  | 0, _, k => k
  | n + 1, pos, k => checksumLoop mem n (pos + 4) (k.1 + long mem pos, k.2 ^^^ long mem pos)

/-- Sum and exclusive or. -/
def calcChecksum (csi : List ChecksumInfo) : U32 × U32 :=
  csi.foldl (fun k csi =>
    if 0 ≤ csi.len ∧ csi.len ≤ maxChecksumLen then
      checksumLoop mem ((csi.len.toNat + 3) / 4) (csi.startP - csi.startP % 4) k
    else k) (0, 0)

/-! ## Blocks -/

/-- The state of a block. -/
inductive Status
  | invalid | active | needRecomp | needCheck | checking | compiling | finalizing
deriving DecidableEq, Repr

/-- A block. -/
structure BlockInfo where
  c1 : U32
  c2 : U32
  csi : List ChecksumInfo
  status : Status
  /-- The blocks that `dep[0]` and `dep[1]` jump to. -/
  dep : Option ℕ × Option ℕ
  /-- The address of the native code. -/
  handler : Option ℕ

/-- The blocks and their lists. -/
structure Cache where
  mem : Mem
  blocks : Heap ℕ BlockInfo
  active : List ℕ
  dormant : List ℕ

variable (s : Cache) (pc : ℕ) (bi : BlockInfo)

/-- Without code and targets. -/
def BlockInfo.invalidate : BlockInfo :=
  { bi with status := .invalid, dep := (none, none), handler := none }

/-- The blocks it jumps to. -/
def BlockInfo.targets : List ℕ := bi.dep.1.toList ++ bi.dep.2.toList

/-- The block's own checksums; two zeros match nothing. -/
def BlockInfo.isGood : Prop :=
  (if bi.c1 ≠ 0 ∨ bi.c2 ≠ 0 then calcChecksum mem bi.csi else (1, 1)) = (bi.c1, bi.c2)
deriving Decidable

namespace Cache

/-- The block at an address. -/
def get (s : Cache) (pc : ℕ) : Option BlockInfo := s.blocks.get pc

/-- Changes a block. -/
def alter (s : Cache) (pc : ℕ) (f : BlockInfo → BlockInfo) : Cache :=
  { s with blocks := s.blocks.alter pc f }

/-- Changes its state. -/
def setStatus (pc : ℕ) (status : Status) : Cache :=
  s.alter pc fun bi => { bi with status := status }

/-- Out of both lists. -/
def removeFromList : Cache :=
  { s with active := s.active.filter (· ≠ pc), dormant := s.dormant.filter (· ≠ pc) }

/-- Into the active list. -/
def addToActive : Cache := { s with active := pc :: s.active }

/-- The code runs again. -/
def reactivate : Cache := ((s.removeFromList pc).addToActive pc).setStatus pc .active

/-- The code is given up. -/
def invalidate (s : Cache) (pc : ℕ) : Cache := s.alter pc BlockInfo.invalidate

end Cache

/-! ## Checks -/

/-- The blocks that a block jumps to, until one of them is not good. -/
def calledCheckChecksum (check : Cache → ℕ → Bool × Cache) : Cache → List ℕ → Bool × Cache
  | s, [] => (true, s)
  | s, t :: ts =>
    let (isgood, s) := check s t
    if isgood then calledCheckChecksum check s ts else (false, s)

/-- Every call below another one has one block less to check. -/
def blockCheckChecksum : ℕ → Cache → ℕ → Bool × Cache
  | 0, s, _ => (true, s)
  | fuel + 1, s, pc =>
    match s.get pc with
    | none => (true, s)
    | some bi =>
      if bi.status ≠ .needCheck then (true, s)
      else if bi.isGood s.mem then
        let (isgood, s) :=
          calledCheckChecksum (blockCheckChecksum fuel) (s.setStatus pc .checking) bi.targets
        if isgood then (true, s.reactivate pc) else (false, s.invalidate pc)
      else (false, s.invalidate pc)

end Aranym.Jit
