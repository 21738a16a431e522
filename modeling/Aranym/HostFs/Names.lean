/-
  File names and host paths of `natfeat/hostfs.cpp`.

  A C string is the list of its characters, a byte standing as the character
  of its code; the buffers of `MAXPATHNAMELEN` bytes in which the code builds
  paths are not bounded here.  The answers of the host system are a `Host`:
  every function that asks the host something takes one.

  `cookie2Pathname` walks from a file cookie up to the root of its drive and
  builds the host path on the way back.
-/
import Aranym.Lib.Forest
import Aranym.Lib.Words

namespace Aranym.HostFs

/-- A string without its end. -/
abbrev Str := List Char

/-! ## Errors -/

/-- The errors of the host. -/
inductive Errno
  | eacces | eperm | enfile | ebadf | enotdir | erofs | enoent | echild | esrch | enxio | eio
  | enoexec | enomem | efault | eexist | exdev | enodev | einval | emfile | enospc | ebusy
  | eisdir | enametoolong | other (n : ℕ)
deriving DecidableEq, Repr

/-- The negative results of `toserror.h`. -/
inductive Tos
  | edrvnr | erofs | eundev | esrch | eisdir | einvfn | efilnf | epthnf | enhndl | eaccdn | eihndl
  | ensmem | eimba | edrive | ensame | enmfil | erange | eintrn | eplfmt | eexist | eio | enospc
  | emount
deriving DecidableEq, Repr

/-- Its number. -/
def Tos.code : Tos → Int
  | .edrvnr => -2
  | .erofs => -13
  | .eundev => -15
  | .esrch => -20
  | .eisdir => -24
  | .einvfn => -32
  | .efilnf => -33
  | .epthnf => -34
  | .enhndl => -35
  | .eaccdn => -36
  | .eihndl => -37
  | .ensmem => -39
  | .eimba => -40
  | .edrive => -46
  | .ensame => -48
  | .enmfil => -49
  | .erange => -64
  | .eintrn => -65
  | .eplfmt => -66
  | .eexist => -85
  | .eio => -90
  | .enospc => -91
  | .emount => -200

/-- The guest's error. -/
def errnoHost2Mint (unixerrno : Errno) (defaulttoserrno : Tos) : Tos :=
  match unixerrno with
  | .eacces | .eperm | .enfile => .eaccdn
  | .ebadf => .eihndl
  | .enotdir => .epthnf
  | .erofs => .erofs
  | .enoent | .echild => .efilnf
  | .esrch => .esrch
  | .enxio => .edrive
  | .eio => .eio
  | .enoexec => .eplfmt
  | .enomem => .ensmem
  | .efault => .eimba
  | .eexist => .eexist
  | .exdev => .ensame
  | .enodev => .eundev
  | .einval => .einvfn
  | .emfile => .enhndl
  | .enospc => .enospc
  | .ebusy => .edrvnr
  | .eisdir => .eisdir
  | .enametoolong => .erange
  | .other _ => defaulttoserrno

/-! ## Short names -/

/-- The end of a string. -/
def nul : Char := Char.ofNat 0

/-- The text from the last `c` on. -/
def strrchr (c : Char) : Str → Option Str
  | [] => none
  | x :: s =>
    match strrchr c s with
    | some t => some t
    | none => if x = c then some (x :: s) else none

/-- The `n` bytes that `strncpy` writes. -/
def strncpy (src : Str) (n : ℕ) : Str := (src.take n ++ List.replicate n nul).take n

/-- Bytes into a buffer. -/
def memcpy (dest : Str) (i : ℕ) (src : Str) : Str :=
  dest.take i ++ src ++ dest.drop (i + src.length)

/-- `char` is signed. -/
def hashValue (source : Str) : U32 :=
  source.foldl (fun h c => h + ((h <<< 3) + (BitVec.ofNat 8 c.toNat).signExtend 32)) 0

/-- `&hashString[5]`, after the sixth of eight hexadecimal digits became a tilde. -/
def hashStr (source : Str) : Str :=
  ['~', Nat.digitChar ((hashValue source).toNat / 16 % 16),
    Nat.digitChar ((hashValue source).toNat % 16)]

/-- The buffer, the length of its name part and the position of the extension, for a name that does
    not fit 8+3. -/
def shorten (source dest : Str) (nameLen extLen : ℕ) (dot : Option Str) : Str × ℕ × Option Str :=
  let (dest, nameLen, extLen, dot) :=
    if extLen = 0 then
      if 12 ≤ nameLen then (dest, 8, 3, hashStr source)
      else
        match dot with
        | none => (dest, 8, 3, source.drop 8)
        | some _ => (dest, min 8 nameLen, 3, hashStr source)
    else
      (memcpy dest (min 5 nameLen) (hashStr source ++ [nul]), min 5 nameLen + 3, extLen,
        (dot.getD []).tail)
  let extLen := min 3 extLen
  let dest := memcpy (dest.set nameLen '.') (nameLen + 1) (strncpy dot extLen)
  (dest.set (nameLen + extLen + 1) nul, nameLen, some dot)

/-- `_` for every space and dot of the string in the buffer. -/
def underscores (dest : Str) : Str :=
  (dest.takeWhile (· ≠ nul)).map (fun c => if c = ' ' ∨ c = '.' then '_' else c) ++
    dest.dropWhile (· ≠ nul)

/-- A name in 8+3 form. -/
def transformFileName (source : Str) : Str :=
  if source = ['.'] ∨ source = ['.', '.'] then source
  else
    -- a leading dot does not start an extension
    let dot := (strrchr '.' source).filter (·.length ≠ source.length)
    let nameLen := source.length - (dot.getD []).length
    let extLen := if nameLen = source.length then 0 else source.length - nameLen - 1
    let dest := strncpy source 12 ++ [nul]
    let (dest, nameLen, dot) :=
      if 8 < nameLen ∨ 3 < extLen ∨ nameLen ≤ 8 ∧ extLen = 0 ∧ dot.isSome then
        shorten source dest nameLen extLen dot
      else (dest, nameLen, dot)
    let dest := underscores dest
    let dest := if dot.isSome then dest.set nameLen '.' else dest
    (dest.takeWhile (· ≠ nul)).map Char.toUpper

/-! ## The host -/

/-- A name in a host directory. -/
structure FileName where
  chars : Str
  ne_nil : chars ≠ []
  no_slash : '/' ∉ chars
deriving DecidableEq

/-- An entry of a directory. -/
structure Dirent where
  ino : U32
  name : FileName
deriving DecidableEq

/-- The system calls that take a path. -/
inductive Sys
  | stat | lstat | opendir | readlink | open | mkdir | rmdir | unlink | rename | symlink | link
  | statvfs | pathconf | utime | chmod | truncate
deriving DecidableEq, Repr

/-- The address of an `XfsFsFile`. -/
abbrev Ptr := ℕ

/-- A node. -/
structure XfsFsFile where
  parent : Option Ptr
  refCount : U32
  childCount : U32
  created : Bool
  name : Str
deriving DecidableEq, Repr

/-- The nodes by their addresses. -/
abbrev Nodes := Lib.Heap Ptr XfsFsFile

/-- What the host answers during one call: `none` is success where only success is asked for. -/
structure Host where
  stat : Str → Option Errno
  /-- `st_mode`. -/
  lstat : Str → Except Errno U32
  /-- What `readdir` returns on the opened directory. -/
  opendir : Str → Except Errno (List Dirent)
  readlink : Str → Option Errno
  /-- `host_opendir` of the target of a symbolic link. -/
  follow : Str → Except Errno (List Dirent)
  answer : Sys → List Str → Option Errno
  canonicalizeFileName : Str → Option Str
  /-- `rootPath` and `halfSensitive` of `bx_options.aranymfs.drive`. -/
  drive : ℕ → Str × Bool
  /-- `new XfsFsFile()`. -/
  new : Nodes → Ptr
  new_fresh : ∀ heap, Lib.Heap.get heap (new heap) = none

/-- A mounted drive. -/
structure ExtDrive where
  driveNumber : U16
  fsDrv : U32
  fsDevDrv : U32
  fsFlags : U32
  hostRoot : Str
  mountPoint : Str
  halfSensitive : Bool
deriving DecidableEq, Repr

/-- A host path that `xfs_native_init` accepts as the root of a drive. -/
def RootOk (hostRoot : Str) : Prop := hostRoot ≠ [] ∧ '\\' ∉ hostRoot

/-- `!drv || drv->halfSensitive`. -/
def halfSensitive (drv : Option ExtDrive) : Bool := (drv.map (·.halfSensitive)).getD true

/-! ## Host paths -/

section
variable (host : Host)

/-- `S_ISLNK`. -/
def isLnk (mode : U32) : Bool := mode &&& 0xF000 = 0xA000

/-- With the system calls made on `fpathName`; those on the target of a link are not among them. -/
def hostOpendir (fpathName : Str) : Except Errno (List Dirent) × List (Sys × Str) :=
  match host.opendir fpathName with
  | .ok entries => (.ok entries, [(.opendir, fpathName)])
  | .error .enotdir =>
    match host.lstat fpathName with
    | .error e => (.error e, [(.opendir, fpathName), (.lstat, fpathName)])
    | .ok mode =>
      if isLnk mode then
        match host.readlink fpathName with
        | some e =>
          (.error e, [(.opendir, fpathName), (.lstat, fpathName), (.readlink, fpathName)])
        | none =>
          (host.follow fpathName,
            [(.opendir, fpathName), (.lstat, fpathName), (.readlink, fpathName)])
      else (.error .enotdir, [(.opendir, fpathName), (.lstat, fpathName)])
  | .error e => (.error e, [(.opendir, fpathName)])

/-- `!strcasecmp(a, b)`. -/
def strcaseeq (a b : Str) : Bool := a.map Char.toLower = b.map Char.toLower

/-- The entry that `getHostFileName` takes for `name`. -/
def namesEntry (drv : Option ExtDrive) (name : Str) (e : Dirent) : Bool :=
  halfSensitive drv && strcaseeq name e.name.chars || transformFileName e.name.chars = name

/-- The name for `name` in the directory `pathName`, which ends in a separator. -/
def getHostFileName (drv : Option ExtDrive) (pathName name : Str) : Str × List (Sys × Str) :=
  if name.any (fun c => c = '*' || c = '?') then (name, [])
  else
    match host.stat (pathName ++ name) with
    | none => (name, [(.stat, pathName ++ name)])
    | some _ =>
      let (dh, calls) := hostOpendir host pathName
      let calls := (.stat, pathName ++ name) :: calls
      match dh with
      | .error _ => (name, calls)
      | .ok entries =>
        match entries.find? (namesEntry drv name) with
        | some e => (e.name.chars, calls)
        | none =>
          if halfSensitive drv && name.all (fun c => c = c.toUpper) then
            (name.map Char.toLower, calls)
          else (name, calls)

/-- Without one trailing separator of either kind. -/
def trim (buf : Str) : Str :=
  if buf.getLast? = some '\\' ∨ buf.getLast? = some '/' then buf.dropLast else buf

/-- A directory with its trailing separator. -/
def joined (buf : Str) : Str := if buf = [] then buf else trim buf ++ ['/']

/-- `fuel` bounds the length of the chain of parents; `none` is a pointer to a node that is gone. -/
def cookie2Pathname (heap : Nodes) (drv : Option ExtDrive) :
    ℕ → Ptr → Option Str → Option (Str × List (Sys × Str))
  | 0, _, _ => none
  | fuel + 1, fs, name => do
    let node ← heap.get fs
    let (buf, calls) ←
      match node.parent with
      -- the root cookie names the host path
      | none => some (node.name, [])
      | some parent => cookie2Pathname heap drv fuel parent (some node.name)
    match name with
    | none | some [] => some (buf, calls)
    | some name =>
      let (result, more) := getHostFileName host drv (joined buf) name
      some (joined buf ++ result, calls ++ more)

end

/-! ## A host on which every call succeeds -/

/-- An address above all live ones. -/
def above (heap : Nodes) : Ptr := heap.foldr (fun c m => max (c.1 + 1) m) 0

theorem lt_above {heap : Nodes} {c : Ptr × XfsFsFile} (hc : c ∈ heap) : c.1 < above heap := by
  induction heap with
  | nil => cases hc
  | cons d heap ih =>
    rcases List.mem_cons.1 hc with rfl | hc
    · exact Nat.lt_of_lt_of_le (Nat.lt_succ_self _) (Nat.le_max_left _ _)
    · exact Nat.lt_of_lt_of_le (ih hc) (Nat.le_max_right _ _)

/-- A host that grants all. -/
def obliging : Host where
  stat _ := none
  lstat _ := .ok 0
  opendir _ := .ok []
  readlink _ := none
  follow _ := .ok []
  answer _ _ := none
  canonicalizeFileName _ := none
  drive _ := ([], false)
  new := above
  new_fresh heap := by
    cases h : heap.get (above heap) with
    | none => rfl
    | some n => exact absurd (lt_above (Lib.Heap.mem_of_get h)) (Nat.lt_irrefl _)

end Aranym.HostFs
