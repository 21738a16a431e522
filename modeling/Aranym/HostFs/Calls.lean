/-
  The calls of the host file system (`HostFs::dispatch`).

  A call is a computation on the mounted drives and on the heap of
  `XfsFsFile` nodes; it fails with a TOS error or, where the code would follow
  a dangling pointer or write beyond all memory, is `undefined`.  The log
  collects every path that is handed to the host, with the device of the
  cookie it was built from.  The path buffers of `MAXPATHNAMELEN` bytes are
  taken as large enough; `InBuffer` says when they are.

  Left out are the data that the calls copy between the host and the guest
  (times, attributes, file contents) and the files that are open; the texts of
  symbolic links are in `Links`.  `fc->drv` is found from `fc->dev` whenever a cookie is
  fetched, so cookies here have no field for it.
-/
import Aranym.HostFs.Names
import Aranym.Lib.Fallible
import Aranym.Lib.Run

namespace Aranym.HostFs

/-- A path handed to the host. -/
structure Access where
  dev : U16
  sys : Sys
  path : Str
deriving DecidableEq, Repr

/-- The mounted drives by their numbers. -/
abbrev Mounts := List (U16 × ExtDrive)

/-- The state of the driver. -/
structure State where
  mounts : Mounts
  heap : Nodes
  log : List Access
deriving DecidableEq

/-- What a call fails with. -/
inductive Fault
  | tos (e : Tos)
  | undefined
deriving DecidableEq, Repr

/-- A call of the driver. -/
abbrev Xfs := EStateM Fault State

/-- The guest's name of a node. -/
structure XfsCookie where
  xfs : U32
  dev : U16
  aux : U16
  index : Ptr
deriving DecidableEq, Repr

/-- An open directory. -/
structure XfsDir where
  fc : XfsCookie
  index : U16
  flags : U16
  /-- The entries that `readdir` has still to return. -/
  hostDir : List Dirent
deriving DecidableEq

/-! ## Nodes -/

/-- Returns an error. -/
def fail {α : Type} (e : Tos) : Xfs α := throw (.tos e)

/-- The node at a pointer. -/
def deref (p : Ptr) : Xfs XfsFsFile := do
  match (← get).heap.get p with
  | some node => pure node
  | none => throw .undefined

/-- Changes a node. -/
def update (p : Ptr) (f : XfsFsFile → XfsFsFile) : Xfs Unit := do
  let _ ← deref p
  modify fun s => { s with heap := s.heap.alter p f }

section
variable (host : Host)

/-- A new node, which its one cookie refers to. -/
def newFsFile (parent : Option Ptr) (name : Str) : Xfs Ptr := do
  let p := host.new (← get).heap
  modify fun s => { s with heap := (p, ⟨parent, 1, 0, false, name⟩) :: s.heap }
  pure p

/-- A new node below `dir`. -/
def newChild (dir : Ptr) (name : Str) : Xfs Ptr := do
  let p ← newFsFile host (some dir) name
  update dir fun n => { n with childCount := n.childCount + 1 }
  pure p

end

/-- `fuel` bounds the length of the chain of parents. -/
def xfsFreefs : ℕ → Nodes → Ptr → Nodes
  | 0, heap, _ => heap
  | fuel + 1, heap, fs =>
    match heap.get fs with
    | none => heap
    | some node =>
      if node.refCount = 0 ∧ node.childCount = 0 then
        match node.parent with
        | none => heap.free fs
        | some parent =>
          let heap := heap.alter parent fun n => { n with childCount := n.childCount - 1 }
          (xfsFreefs fuel heap parent).free fs
      else heap

/-! ## Names and paths -/

/-- `MAXPATHNAMELEN`. -/
def maxPathNameLen : ℕ := 2048

/-- `Atari2HostSafeStrncpy` and `Host2AtariSafeStrncpy` into a buffer of `count` bytes. -/
def safeStrncpy (src : Str) (count : ℕ) : Str := src.take (count - 1)

/-- `strncpy` fills the whole buffer: the `size_t` that comes of a negative count is more than there
    is memory. -/
def host2AtariSafeStrncpy (src : Str) (count : ℤ) : Xfs Str :=
  if count < 0 then throw .undefined else pure (safeStrncpy src count.toNat)

/-- The name in guest memory, in a local buffer. -/
def fetchName (name : Str) : Str := safeStrncpy name maxPathNameLen

/-- Slashes for backslashes. -/
def strd2upath (s : Str) : Str := s.map fun c => if c = '\\' ∨ c = '/' then '/' else c

section
variable (host : Host)

/-- The host's name of a file. -/
def myCanonicalizeFileName (filename : Str) (appendSlash : Bool) : Str :=
  let resolved := strd2upath ((host.canonicalizeFileName filename).getD filename)
  if appendSlash ∧ 1 < resolved.length ∧ resolved.getLast? ≠ some '/' then resolved ++ ['/']
  else resolved

/-- Logs the paths. -/
def touch (dev : U16) (calls : List (Sys × Str)) : Xfs Unit :=
  modify fun s => { s with log := s.log ++ calls.map fun c => ⟨dev, c.1, c.2⟩ }

variable (dir : XfsCookie) (name : Str) (fc : XfsCookie) (devnum : U16)

/-- `cookie2Pathname(fc, name, buf)`. -/
def pathname (name : Option Str) : Xfs Str := do
  let s ← get
  match cookie2Pathname host s.heap (s.mounts.lookup fc.dev) s.heap.length fc.index name with
  | none => throw .undefined
  | some (path, calls) => do
    touch fc.dev calls
    pure path

/-- `if (answer) return errnoHost2Mint(errno, defaulttoserrno)`. -/
def check (answer : Option Errno) (defaulttoserrno : Tos) : Xfs Unit :=
  match answer with
  | none => pure ()
  | some e => fail (errnoHost2Mint e defaulttoserrno)

/-- A system call on one path. -/
def sysCall (sys : Sys) (path : Str) (defaulttoserrno : Tos) : Xfs Unit := do
  touch fc.dev [(sys, path)]
  check (host.answer sys [path]) defaulttoserrno

/-- The mode of a file. -/
def lstat (fc : XfsCookie) (path : Str) (defaulttoserrno : Tos) : Xfs U32 := do
  touch fc.dev [(.lstat, path)]
  match host.lstat path with
  | .ok mode => pure mode
  | .error e => fail (errnoHost2Mint e defaulttoserrno)

/-! ## Drives -/

/-- The number of a drive. -/
def driveFromLetter (d : Char) : Option ℕ :=
  if 'A' ≤ d ∧ d ≤ 'Z' then some (d.toNat - 'A'.toNat)
  else if 'a' ≤ d ∧ d ≤ 'z' then some (d.toNat - 'a'.toNat)
  else if '0' ≤ d ∧ d ≤ '5' then some (d.toNat - '0'.toNat + 26)
  else none

/-- The drive that a mount point names, and the mount point with its drive letter in front. -/
def mountDrive : Str → Option ℕ × Str
  | [d, ':'] => (driveFromLetter d, [d, ':'])
  | u :: colon :: sep :: d :: rest =>
    if strcaseeq [u, colon, sep] ['u', ':', '\\'] then
      (driveFromLetter d, d.toUpper :: colon :: rest)
    else (none, u :: colon :: sep :: d :: rest)
  | s => (none, s)

/-- `mounts.insert`, which keeps a drive that is already there. -/
def insertMount (mounts : Mounts) (dev : U16) (drv : ExtDrive) : Mounts :=
  if (mounts.lookup dev).isSome then mounts else mounts ++ [(dev, drv)]

/-- The drive to mount, and the number of the GEMDOS drive it stands for. -/
def newDrive (mountpoint hostroot : Str) (half : Bool)
    (filesys fsFlags filesysDevdrv : U32) : ExtDrive × Option ℕ :=
  let (dnum, fmountPoint) := mountDrive (fetchName mountpoint)
  let mountPoint := strd2upath fmountPoint
  let mountPoint :=
    if mountPoint ≠ [] ∧ mountPoint.getLast? ≠ some '/' then mountPoint ++ ['/'] else mountPoint
  match dnum with
  | some d =>
    (⟨devnum, filesys, filesysDevdrv, fsFlags, myCanonicalizeFileName host (host.drive d).1 true,
      mountPoint, (host.drive d).2⟩, some d)
  | none =>
    (⟨devnum, filesys, filesysDevdrv, fsFlags,
      myCanonicalizeFileName host (fetchName hostroot) true, mountPoint, half⟩, none)

/-- A drive that was mounted elsewhere serves also as the GEMDOS drive it stands for. -/
def insertDrive (mounts : Mounts) (drv : ExtDrive) (dnum : Option ℕ) : Mounts :=
  let mounts := insertMount mounts drv.driveNumber drv
  match dnum with
  | none => mounts
  | some d =>
    if BitVec.ofNat 16 d ≠ drv.driveNumber then
      insertMount mounts (.ofNat 16 d) { drv with driveNumber := .ofNat 16 d }
    else mounts

/-- Mounts a drive. -/
def xfsNativeInit (mountpoint hostroot : Str) (half : Bool)
    (filesys fsFlags filesysDevdrv : U32) : Xfs Unit :=
  let (drv, dnum) := newDrive host devnum mountpoint hostroot half filesys fsFlags filesysDevdrv
  if drv.hostRoot = [] then fail .epthnf
  else modify fun s => { s with mounts := insertDrive s.mounts drv dnum }

/-! ## Cookies -/

/-- The cookie of a root. -/
def xfsRoot (dev : U16) : Xfs XfsCookie := do
  match (← get).mounts.lookup dev with
  | none => fail .edrive
  | some drv => do
    let index ← newFsFile host none drv.hostRoot
    pure ⟨drv.fsDrv, dev, 0, index⟩

/-- Another cookie for a node. -/
def share (p : Ptr) : Xfs XfsCookie := do
  update p fun n => { n with refCount := n.refCount + 1 }
  pure { dir with index := p }

/-- The cookie of a name. -/
def xfsLookup : Xfs XfsCookie := do
  let fname := fetchName name
  if fname = [] ∨ fname = ['.'] then share dir dir.index
  else if fname = ['.', '.'] then do
    match (← deref dir.index).parent with
    | none => fail .emount
    | some parent => share dir parent
  else do
    let fpathName ← pathname host dir (some fname)
    let _ ← lstat host dir fpathName .efilnf
    let index ← newChild host dir.index fname
    pure { dir with index := index }

/-- Creates a file. -/
def xfsCreat : Xfs XfsCookie := do
  let fname := fetchName name
  let fpathName ← pathname host dir (some fname)
  sysCall host dir .open fpathName .efilnf
  let index ← newChild host dir.index fname
  pure { dir with index := index }

/-- The entries `.` and `..` are left out at the root of a drive. -/
def dots (e : Dirent) : Bool := e.name.chars = ['.'] || e.name.chars = ['.', '.']

/-- The entries from the next one on that `xfs_readdir` looks at. -/
def unread (atRoot : Bool) (hostDir : List Dirent) : List Dirent :=
  if atRoot then hostDir.dropWhile dots else hostDir

/-- What `xfs_readdir` leaves in the directory handle, and its result: the cookie of the entry and
    what is written for it, the number of the file in front of the name where the flags are 0. -/
structure Readdir where
  dirh : XfsDir
  result : Except Tos (XfsCookie × Option U32 × Str)

/-- What is written for an entry, `none` if the buffer is too small. -/
def writeEntry (dirh : XfsDir) (len : U16) (e : Dirent) : Xfs (Option (Option U32 × Str)) :=
  if dirh.flags = 0 then
    if len.toNat < e.name.chars.length + 4 then pure none
    else do
      let _ ← pathname host dirh.fc (some e.name.chars)
      let name ← host2AtariSafeStrncpy e.name.chars (len.toInt - 4)
      pure (some (some e.ino, name))
  else
    let truncFileName := transformFileName e.name.chars
    if len.toNat < truncFileName.length then pure none
    else do
      let name ← host2AtariSafeStrncpy truncFileName len.toInt
      pure (some (none, name))

/-- The next entry. -/
def xfsReaddir (dirh : XfsDir) (len : U16) : Xfs Readdir := do
  match (← get).mounts.lookup dirh.fc.dev with
  | none => throw .undefined
  | some drv => do
    let dir ← deref dirh.fc.index
    match unread dir.parent.isNone dirh.hostDir with
    | [] => pure ⟨{ dirh with hostDir := [] }, .error .enmfil⟩
    | e :: rest => do
      let written ← writeEntry host dirh len e
      match written with
      | none => pure ⟨{ dirh with hostDir := rest }, .error .erange⟩
      | some written => do
        let index ← newChild host dirh.fc.index e.name.chars
        pure ⟨{ dirh with index := dirh.index + 1, hostDir := rest },
          .ok (⟨drv.fsDrv, dirh.fc.dev, 0, index⟩, written)⟩

/-- The cookie that `xfs_readdir` returns. -/
def readdirCookie (dirh : XfsDir) (len : U16) : Xfs XfsCookie := do
  match (← xfsReaddir host dirh len).result with
  | .ok (fc, _) => pure fc
  | .error e => fail e

/-- Another cookie of a node. -/
def xfsDupcookie (oldCook : XfsCookie) : Xfs XfsCookie := do
  let old ← deref oldCook.index
  match old.parent with
  | some parent => do
    let index ← newChild host parent old.name
    pure { oldCook with index := index }
  | none => do
    match (← get).mounts.lookup oldCook.dev with
    | none => throw .undefined
    | some drv => do
      let index ← newFsFile host none drv.hostRoot
      pure { oldCook with index := index }

/-- Gives a cookie back. -/
def xfsRelease : Xfs Unit := do
  let node ← deref fc.index
  if node.refCount = 0 then fail .eaccdn
  else do
    update fc.index fun n => { n with refCount := n.refCount - 1 }
    modify fun s => { s with heap := xfsFreefs s.heap.length s.heap fc.index }

/-! ## Calls that only hand paths to the host -/

/-- A call that makes one system call, on the path of a cookie and a name. -/
def onPath (name : Option Str) (sys : Sys) (defaulttoserrno : Tos) : Xfs Unit := do
  let fpathName ← pathname host fc name
  sysCall host fc sys fpathName defaulttoserrno

/-- The free space. -/
def xfsDfree : Xfs Unit := onPath host dir none .statvfs .efilnf

/-- Makes a directory. -/
def xfsMkdir : Xfs Unit :=
  onPath host dir (some (fetchName name)) .mkdir .efilnf

/-- Removes a directory. -/
def xfsRmdir : Xfs Unit :=
  onPath host dir (some (fetchName name)) .rmdir .efilnf

/-- Removes a file. -/
def xfsRemove : Xfs Unit :=
  onPath host dir (some (fetchName name)) .unlink .efilnf

/-- Changes the mode. -/
def xfsChmod : Xfs Unit := onPath host fc none .chmod .eaccdn

/-- Reads a link. -/
def xfsReadlink : Xfs Unit := do
  let fpathName ← pathname host dir none
  touch dir.dev [(.readlink, fpathName)]
  check (host.readlink fpathName) .efilnf

/-- A system call on two paths. -/
def onPaths (name : Str) (fc' : XfsCookie) (name' : Str) (sys : Sys) :
    Xfs Unit := do
  let fpathName ← pathname host fc (some (fetchName name))
  let fpathName' ← pathname host fc' (some (fetchName name'))
  touch fc.dev [(sys, fpathName)]
  touch fc'.dev [(sys, fpathName')]
  check (host.answer sys [fpathName, fpathName']) .efilnf

/-- Renames a file. -/
def xfsRename (olddir : XfsCookie) (oldname : Str) (newdir : XfsCookie)
    (newname : Str) : Xfs Unit :=
  onPaths host olddir oldname newdir newname .rename

/-- Makes a hard link. -/
def xfsHardlink (fromDir : XfsCookie) (fromname : Str) (toDir : XfsCookie) (toname : Str) :
    Xfs Unit :=
  onPaths host fromDir fromname toDir toname .link

/-- Makes a symbolic link. -/
def xfsSymlink (fromname toname : Str) : Xfs Unit := do
  let ffromName ← pathname host dir (some (fetchName fromname))
  if fetchName toname = [] ∨ ffromName = [] then fail .efilnf
  else sysCall host dir .symlink ffromName .efilnf

/-- The attributes. -/
def xfsGetxattr (name : Option Str) : Xfs Unit := do
  let fpathName ← pathname host fc (name.map fetchName)
  let _ ← lstat host fc fpathName .efilnf

/-- Differs from `xfs_getxattr` in the structure it fills. -/
def xfsStat64 (name : Option Str) : Xfs Unit := xfsGetxattr host fc name

/-- `S_IWUSR | S_IWGRP | S_IWOTH`. -/
def writable : U32 := 0o222

/-- Sets the attributes. -/
def xfsChattr (attr : U16) : Xfs Unit := do
  let fpathName ← pathname host fc none
  let mode ← lstat host fc fpathName .eaccdn
  let newmode := if attr &&& 1 ≠ 0 then mode &&& ~~~ writable else mode ||| writable
  if newmode ≠ mode then sysCall host fc .chmod fpathName .eaccdn

/-- Reads or sets the time. -/
def xfsDevDatime (wflag : U16) : Xfs Unit := do
  let fpathName ← pathname host fc none
  touch fc.dev [(.stat, fpathName)]
  check (host.stat fpathName) .efilnf
  if wflag ≠ 0 then sysCall host fc .utime fpathName .eaccdn

/-- Limits of the file system. -/
def xfsPathconf (which : U16) : Xfs Unit := do
  let fpathName ← pathname host fc none
  sysCall host fc .statvfs fpathName .efilnf
  if which = 1 then sysCall host fc .pathconf fpathName .efilnf

/-- A file that `xfs_creat` made is now opened with `O_CREAT`, bit 9 of the flags of the guest. -/
def markCreated (p : Ptr) (flags : U16) : Xfs Unit := do
  let node ← deref p
  if !node.created && flags.getLsbD 9 then update p fun n => { n with created := true }

/-- Opens a file. -/
def xfsDevOpen (flags : U16) : Xfs Unit := do
  let fpathName ← pathname host fc none
  markCreated fc.index flags
  sysCall host fc .open fpathName .efilnf

/-- Opens a directory. -/
def xfsOpendir (dirh : XfsDir) (flags : U16) : Xfs XfsDir := do
  let fpathName ← pathname host dirh.fc none
  let (hostDir, calls) := hostOpendir host fpathName
  touch dirh.fc.dev calls
  match hostDir with
  | .ok entries => pure { dirh with flags := flags, index := 0, hostDir := entries }
  | .error e => fail (errnoHost2Mint e .epthnf)

/-- `\` for `/`, as long as there is room. -/
def unx2dos (size : Int) (s : Str) : Str :=
  (s.take size.toNat).map fun c => if c = '/' then '\\' else c

/-- A name relative to another. -/
def xfsGetname (relto dir : XfsCookie) (size : U16) : Xfs Str := do
  let base ← pathname host relto none
  let dirPath ← pathname host dir none
  let base := if base.getLast? = some '/' then base.dropLast else base
  let dirPath := if base.isPrefixOf dirPath then dirPath.drop base.length else dirPath
  -- the loop has used up the room exactly if as many characters were copied
  if size.toInt = (unx2dos size.toInt dirPath).length then fail .erange
  else pure (unx2dos size.toInt dirPath)

/-- The commands of `xfs_fscntl`. -/
inductive Fscntl
  | mxKerXfsname
  | fsInfo
  | fsUsage
  | futime (name : Option Str)
  | futimeUtc (name : Option Str)
  | ftruncate (name : Str)
  | fstat (name : Option Str)
  | fstat64 (name : Option Str)
  | other
deriving DecidableEq, Repr

/-- The requests on a path. -/
def xfsFscntl (dir : XfsCookie) : Fscntl → Xfs Unit
  | .mxKerXfsname | .fsInfo => pure ()
  | .fsUsage => onPath host dir none .statvfs .efilnf
  | .futime name | .futimeUtc name => onPath host dir (name.map fetchName) .utime .efilnf
  | .ftruncate name => onPath host dir (some (fetchName name)) .truncate .efilnf
  | .fstat name => xfsGetxattr host dir name
  | .fstat64 name => xfsStat64 host dir name
  | .other => fail .einvfn

/-! ## Dispatch -/

/-- The calls of the guest. -/
inductive Call
  | init (devnum : U16) (mountpoint hostroot : Str) (half : Bool)
      (filesys fsFlags filesysDevdrv : U32)
  | root (dev : U16)
  | lookup (dir : XfsCookie) (name : Str)
  | creat (dir : XfsCookie) (name : Str)
  | readdir (dirh : XfsDir) (len : U16)
  | dupcookie (oldCook : XfsCookie)
  | release (fc : XfsCookie)
  | dfree (dir : XfsCookie)
  | mkdir (dir : XfsCookie) (name : Str)
  | rmdir (dir : XfsCookie) (name : Str)
  | remove (dir : XfsCookie) (name : Str)
  | chmod (fc : XfsCookie)
  | readlink (dir : XfsCookie)
  | rename (olddir : XfsCookie) (oldname : Str) (newdir : XfsCookie) (newname : Str)
  | hardlink (fromDir : XfsCookie) (fromname : Str) (toDir : XfsCookie) (toname : Str)
  | symlink (dir : XfsCookie) (fromname toname : Str)
  | getxattr (fc : XfsCookie)
  | stat64 (fc : XfsCookie)
  | chattr (fc : XfsCookie) (attr : U16)
  | devDatime (fc : XfsCookie) (wflag : U16)
  | pathconf (fc : XfsCookie) (which : U16)
  | devOpen (fc : XfsCookie) (flags : U16)
  | opendir (dirh : XfsDir) (flags : U16)
  | getname (relto dir : XfsCookie) (size : U16)
  | fscntl (dir : XfsCookie) (cmd : Fscntl)
deriving DecidableEq

/-- With the cookie that a successful call returns. -/
def dispatch : Call → Xfs (Option XfsCookie)
  | .init devnum mountpoint hostroot half filesys fsFlags filesysDevdrv => do
    xfsNativeInit host devnum mountpoint hostroot half filesys fsFlags filesysDevdrv
    pure none
  | .root dev => some <$> xfsRoot host dev
  | .lookup dir name => some <$> xfsLookup host dir name
  | .creat dir name => some <$> xfsCreat host dir name
  | .readdir dirh len => some <$> readdirCookie host dirh len
  | .dupcookie oldCook => some <$> xfsDupcookie host oldCook
  | .release fc => do xfsRelease fc; pure none
  | .dfree dir => do xfsDfree host dir; pure none
  | .mkdir dir name => do xfsMkdir host dir name; pure none
  | .rmdir dir name => do xfsRmdir host dir name; pure none
  | .remove dir name => do xfsRemove host dir name; pure none
  | .chmod fc => do xfsChmod host fc; pure none
  | .readlink dir => do xfsReadlink host dir; pure none
  | .rename olddir oldname newdir newname => do
    xfsRename host olddir oldname newdir newname
    pure none
  | .hardlink fromDir fromname toDir toname => do
    xfsHardlink host fromDir fromname toDir toname
    pure none
  | .symlink dir fromname toname => do xfsSymlink host dir fromname toname; pure none
  | .getxattr fc => do xfsGetxattr host fc none; pure none
  | .stat64 fc => do xfsStat64 host fc none; pure none
  | .chattr fc attr => do xfsChattr host fc attr; pure none
  | .devDatime fc wflag => do xfsDevDatime host fc wflag; pure none
  | .pathconf fc which => do xfsPathconf host fc which; pure none
  | .devOpen fc flags => do xfsDevOpen host fc flags; pure none
  | .opendir dirh flags => do let _ ← xfsOpendir host dirh flags; pure none
  | .getname relto dir size => do let _ ← xfsGetname host relto dir size; pure none
  | .fscntl dir cmd => do xfsFscntl host dir cmd; pure none

end

/-! ## Runs -/

/-- The part of a cookie that refers to a node. -/
structure Handle where
  dev : U16
  index : Ptr
deriving DecidableEq, Repr

/-- Its device and node. -/
def XfsCookie.handle (fc : XfsCookie) : Handle := ⟨fc.dev, fc.index⟩

/-- The file system with the cookies that it returned and that were not released since. -/
structure World where
  fs : State
  held : List Handle
deriving DecidableEq

/-- Nothing is mounted or held. -/
def World.initial : World := ⟨⟨[], [], []⟩, []⟩

/-- What a call gives back. -/
def Call.released : Call → Option Handle
  | .release fc => some fc.handle
  | _ => none

/-- One call, and the cookies that are held after it. -/
def step (w : World) (i : Host × Call) : World × Except Fault (Option XfsCookie) :=
  match dispatch i.1 i.2 w.fs with
  | .ok (some fc) fs => (⟨fs, fc.handle :: w.held⟩, .ok (some fc))
  | .ok none fs => (⟨fs, (i.2.released.map w.held.erase).getD w.held⟩, .ok none)
  | .error e fs => (⟨fs, w.held⟩, .error e)

/-- The cookies that a call is made on. -/
def Call.cookies : Call → List XfsCookie
  | .init .. | .root _ => []
  | .lookup fc _ | .creat fc _ | .dupcookie fc | .release fc | .dfree fc | .mkdir fc _
  | .rmdir fc _ | .remove fc _ | .chmod fc | .readlink fc | .symlink fc _ _ | .getxattr fc
  | .stat64 fc | .chattr fc _ | .devDatime fc _ | .pathconf fc _ | .devOpen
      fc _ | .fscntl fc _ => [fc]
  | .readdir dirh _ | .opendir dirh _ => [dirh.fc]
  | .rename fc _ fc' _ | .hardlink fc _ fc' _ | .getname fc fc' _ => [fc, fc']

/-- A call is made only on cookies that are held. -/
def Held (w : World) (i : Host × Call) : Prop := ∀ fc ∈ i.2.cookies, fc.handle ∈ w.held
deriving Decidable

end Aranym.HostFs
