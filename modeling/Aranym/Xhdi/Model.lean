/-
  The disk driver of the native features (`natfeat/xhdi.cpp`).

  A disk is a host file, the image, of blocks of 512 bytes.  A partition gets a
  root sector in front of it that exists nowhere (`simRoot`), so that its
  sector `s` is block `s - 1`.  The bytes of every word are swapped on the way
  unless the image is stored that way (`byteswap`).

  Guest memory is a function of its addresses.  A `Host` is what the host
  answers during one call: files can fail to open, and reads and writes can
  stop anywhere.  Seeking in an open image succeeds, and nothing but the driver
  changes an image.  Names and paths of the disks are left out.
-/
import Aranym.Lib.Run
import Aranym.Lib.Storage
import Aranym.Lib.Words

namespace Aranym.Xhdi

open Lib

/-- A byte. -/
abbrev Byte := U8

/-- The guest's memory. -/
abbrev Ram := U32 → Byte

/-- `XHDI_BLOCK_SIZE`. -/
def blockSize : ℕ := 512

/-- The errors. -/
inductive Result
  | ok | edrvnr | eundev | eaccdn
deriving DecidableEq, Repr

/-- `disk_t`, with the contents of its image. -/
structure Disk where
  present : Bool
  readonly : Bool
  byteswap : Bool
  simRoot : Bool
  partID : Byte × Byte × Byte
  sizeBlocks : U32
  /-- The image is open. -/
  file : Bool
  image : List Byte
deriving DecidableEq

/-- The disks by their major numbers. -/
abbrev Driver := ℕ → Disk

/-- The host's files. -/
structure Host where
  fopen : Bool
  stat : Bool
  /-- The bytes that the `i`-th `fread` or `fwrite` of the call moves, at most. -/
  moves : ℕ → ℕ

/-- The first SCSI disk. -/
def scsiStart : ℕ := 8

/-- The first IDE disk. -/
def ideStart : ℕ := 16

/-- The last one. -/
def ideEnd : ℕ := 17

/-! ## Settings -/

/-- The blocks of an image, with the root sector in front. -/
def Disk.blocks (disk : Disk) : ℕ :=
  disk.image.length / blockSize + if disk.simRoot then 1 else 0

variable (c : Byte) (host : Host) (d : Driver)

/-- The size of the image. -/
def setDiskSizeInBlocks (disk : Disk) : Bool × Disk :=
  if disk.present && host.stat then (true, { disk with sizeBlocks := .ofNat 32 disk.blocks })
  else (false, { disk with sizeBlocks := 0 })

/-- The settings of a device; `isCDROM` is false for a partition. -/
structure Settings where
  present : Bool
  isCDROM : Bool
  readonly : Bool
  byteswap : Bool
  partID : Byte × Byte × Byte
  image : List Byte

/-- An IDE disk. -/
def copyAtadeviceSettings (src : Settings) : Disk :=
  (setDiskSizeInBlocks host
    ⟨if src.isCDROM then false else src.present, src.readonly, src.byteswap, false,
      (0, 0, 0), 0, false, src.image⟩).2

/-- A SCSI disk. -/
def copyScsideviceSettings (src : Settings) : Disk :=
  (setDiskSizeInBlocks host
    ⟨src.present, src.readonly, src.byteswap, true, src.partID, 0, false, src.image⟩).2

/-- The disks below the first partition are never set up. -/
def initDisks (settings : ℕ → Settings) : Driver := fun major =>
  if major < scsiStart then ⟨false, false, false, false, (0, 0, 0), 0, false, []⟩
  else if major < ideStart then copyScsideviceSettings host (settings major)
  else copyAtadeviceSettings host (settings major)

/-! ## Reading and writing -/

/-- The disk of a number. -/
def dev2disk (major minor : U16) : Option Disk :=
  if minor ≠ 0 then none
  else if scsiStart ≤ major.toNat ∧ major.toNat ≤ ideEnd ∧ (d major.toNat).present then
    some (d major.toNat)
  else none

/-- The buffers here have an even size. -/
def byteSwapBuf : List Byte → List Byte
  | a :: b :: buf => b :: a :: byteSwapBuf buf
  | buf => buf

/-- A buffer on its way between the image and the guest. -/
def Disk.convert (disk : Disk) (buf : List Byte) : List Byte :=
  if disk.byteswap then buf else byteSwapBuf buf

/-- Big-endian bytes. -/
def be32 (x : U32) : List Byte :=
  [x.extractLsb' 24 8, x.extractLsb' 16 8, x.extractLsb' 8 8, x.extractLsb' 0 8]

/-- `isspace`. -/
def isSpace : Bool := c = 32 || 9 ≤ c && c ≤ 13

/-- The value of a digit. -/
def hexDigit : Option ℕ :=
  if 48 ≤ c ∧ c ≤ 57 then some (c.toNat - 48)
  else if 65 ≤ c ∧ c ≤ 70 then some (c.toNat - 55)
  else if 97 ≤ c ∧ c ≤ 102 then some (c.toNat - 87)
  else none

/-- `strtol(str, NULL, 16)` for the two characters of a partition type, in a byte. -/
def strtol16 (a b : Byte) : Byte :=
  match hexDigit a, hexDigit b with
  | some x, some y => .ofNat 8 (16 * x + y)
  | some x, none => .ofNat 8 x
  | none, some y =>
    if isSpace a || a = 43 then .ofNat 8 y else if a = 45 then - .ofNat 8 y else 0
  | none, none => 0

/-- The root sector of a partition: the size of the disk and one entry in the table. -/
def rootSector (disk : Disk) : List Byte :=
  let (a, b, c) := disk.partID
  let id := if a = 36 then [0, 68, strtol16 b c] else [a, b, c]
  List.replicate 0x1c2 0 ++ be32 disk.sizeBlocks ++ [1] ++ id ++ be32 1 ++
    be32 (disk.sizeBlocks - 1) ++ List.replicate 46 0

/-- The loop over `n` sectors from block `recno` on, with the number of sectors that were moved. -/
def rwLoop (host : Host) (disk : Disk) (writing : Bool) (recno : ℕ) :
    ℕ → ℕ → U32 → List Byte → Ram → ℕ × List Byte × Ram
  | 0, i, _, image, mem => (i, image, mem)
  | n + 1, i, buf, image, mem =>
    if writing then
      let written := (disk.convert (load mem buf blockSize)).take (host.moves i)
      let image := overwrite 0 image ((recno + i) * blockSize) written
      if written.length ≠ blockSize then (i, image, mem)
      else rwLoop host disk writing recno n (i + 1) (buf + 512) image mem
    else
      let tempbuf := ((image.drop ((recno + i) * blockSize)).take blockSize).take (host.moves i)
      if tempbuf.length ≠ blockSize then (i, image, mem)
      else rwLoop host disk writing recno n (i + 1) (buf + 512) image
        (store mem buf (disk.convert tempbuf))

/-- A read or write. -/
structure Request where
  major : U16
  minor : U16
  rwflag : U16
  recno : U32
  count : U16
  buf : U32
  /-- The memory of the guest at the call. -/
  mem : Ram

/-- Bit 0 of `rwflag`. -/
def Request.writing (q : Request) : Bool := q.rwflag.getLsbD 0

/-- What a call leaves; `moved` counts the sectors that were read or written. -/
structure Outcome where
  result : Result
  driver : Driver
  mem : Ram
  moved : ℕ

/-- The file is open. -/
def readWriteOpen (q : Request) (disk : Disk) : Outcome :=
  let loop (recno count : ℕ) (buf : U32) (mem : Ram) (moved : ℕ) : Outcome :=
    let (n, image, mem) := rwLoop host disk q.writing recno count 0 buf disk.image mem
    ⟨.ok, Function.update d q.major.toNat { disk with image := image }, mem, moved + n⟩
  if disk.simRoot then
    if q.recno = 0 ∧ 0 < q.count.toNat then
      let mem := if q.writing then q.mem else store q.mem q.buf (rootSector disk)
      let moved := if q.writing then 0 else 1
      if q.count.toNat - 1 = 0 then
        ⟨if q.writing then .eaccdn else .ok, Function.update d q.major.toNat disk, mem, moved⟩
      else loop 0 (q.count.toNat - 1) (q.buf + 512) mem moved
    else loop (q.recno.toNat - 1) q.count.toNat q.buf q.mem 0
  else loop q.recno.toNat q.count.toNat q.buf q.mem 0

/-- Moves sectors. -/
def xhReadWrite (q : Request) : Outcome :=
  match dev2disk d q.major q.minor with
  | none => ⟨.eundev, d, q.mem, 0⟩
  | some disk =>
    if q.writing ∧ disk.readonly then ⟨.eaccdn, d, q.mem, 0⟩
    else if disk.file ∨ host.fopen then readWriteOpen host d q { disk with file := true }
    else ⟨.edrvnr, d, q.mem, 0⟩

/-! ## Capacity and runs -/

/-- `blocks` and `blocksize` are addresses, 0 for none. -/
def xhGetCapacity (major minor : U16) (blocks blocksize : U32)
    (mem : Ram) : Result × Driver × Ram :=
  match dev2disk d major minor with
  | none => (.eundev, d, mem)
  | some disk =>
    let (measured, disk) := setDiskSizeInBlocks host disk
    let d := Function.update d major.toNat disk
    if measured then
      let mem := if blocks ≠ 0 then store mem blocks (be32 disk.sizeBlocks) else mem
      let mem := if blocksize ≠ 0 then store mem blocksize (be32 512) else mem
      (.ok, d, mem)
    else (.edrvnr, d, mem)

/-- The calls of the guest. -/
inductive Call
  | readWrite (q : Request)
  | getCapacity (major minor : U16) (blocks blocksize : U32) (mem : Ram)

/-- One call; what it leaves in the memory of the guest is its output. -/
def step (i : Host × Call) : Driver × Result × Ram :=
  match i.2 with
  | .readWrite q =>
    let o := xhReadWrite i.1 d q
    (o.driver, o.result, o.mem)
  | .getCapacity major minor blocks blocksize mem =>
    let (result, d, mem) := xhGetCapacity i.1 d major minor blocks blocksize mem
    (d, result, mem)

end Aranym.Xhdi
