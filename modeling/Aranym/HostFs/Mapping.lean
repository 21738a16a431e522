/-
  The numbers of nodes that the guest sees, on a host with 64-bit pointers.

  In guest memory the index of a cookie is the number of its node.
  `fetchXFSC` turns it into a pointer and `flushXFSC` back into a number, with
  the two maps of `memptrMapper`; every new node is entered there and every
  deleted node removed.

  A search for a key that is not there gives an arbitrary value here, and the
  run goes on.  As long as the guest uses the cookies that it holds, this does
  not disturb the maps (`Session.Inv`).
-/
import Aranym.HostFs.Listing
import Aranym.Tools.Mapper

namespace Aranym.HostFs

open List

open Lib Tools

/-! ## Calls of the guest -/

/-- The same call on other cookies. -/
def Call.mapCookies (f : XfsCookie → XfsCookie) : Call → Call
  | .init devnum mountpoint hostroot half filesys fsFlags filesysDevdrv =>
    .init devnum mountpoint hostroot half filesys fsFlags filesysDevdrv
  | .root dev => .root dev
  | .lookup dir name => .lookup (f dir) name
  | .creat dir name => .creat (f dir) name
  | .readdir dirh len => .readdir { dirh with fc := f dirh.fc } len
  | .dupcookie oldCook => .dupcookie (f oldCook)
  | .release fc => .release (f fc)
  | .dfree dir => .dfree (f dir)
  | .mkdir dir name => .mkdir (f dir) name
  | .rmdir dir name => .rmdir (f dir) name
  | .remove dir name => .remove (f dir) name
  | .chmod fc => .chmod (f fc)
  | .readlink dir => .readlink (f dir)
  | .rename olddir oldname newdir newname => .rename (f olddir) oldname (f newdir) newname
  | .hardlink fromDir fromname toDir toname => .hardlink (f fromDir) fromname (f toDir) toname
  | .symlink dir fromname toname => .symlink (f dir) fromname toname
  | .getxattr fc => .getxattr (f fc)
  | .stat64 fc => .stat64 (f fc)
  | .chattr fc attr => .chattr (f fc) attr
  | .devDatime fc wflag => .devDatime (f fc) wflag
  | .pathconf fc which => .pathconf (f fc) which
  | .devOpen fc flags => .devOpen (f fc) flags
  | .opendir dirh flags => .opendir { dirh with fc := f dirh.fc } flags
  | .getname relto dir size => .getname (f relto) (f dir) size
  | .fscntl dir cmd => .fscntl (f dir) cmd

/-- The calls that use a cookie but no node. -/
inductive FileOp
  | getdev | readlabel | devLseek | rewinddir | closedir | devWrite | devRead | devIoctl | devClose
deriving DecidableEq, Repr

/-- A call as it arrives: the indices of its cookies are numbers of nodes. -/
inductive Request
  | call (c : Call)
  | file (op : FileOp) (fc : XfsCookie)
deriving DecidableEq

/-- Its cookies. -/
def Request.cookies : Request → List XfsCookie
  | .call c => c.cookies
  | .file _ fc => [fc]

/-- The call also fetches the cookie in which it returns its result. -/
def Call.fetchesResult : Call → Bool
  | .root _ | .dupcookie _ => true
  | _ => false

/-- The nodes whose numbers are written back, `none` for a null pointer; `old` was fetched with the
    cookie for the result. -/
def Call.flushes (old : Ptr) (result : Option XfsCookie) : Call → List (Option Ptr)
  | .root _ => [some ((result.map XfsCookie.index).getD old)]
  | .lookup dir _ | .creat dir _ => [some dir.index, result.map XfsCookie.index]
  | .readdir dirh _ => [some dirh.fc.index, result.map XfsCookie.index]
  | .dupcookie oldCook => [some ((result.map XfsCookie.index).getD old), some oldCook.index]
  | .getxattr fc | .stat64 fc | .remove fc _ | .pathconf fc _ | .fscntl fc _ | .release fc
  | .devDatime fc _ | .devOpen fc _ => [some fc.index]
  | .opendir dirh _ => [some dirh.fc.index]
  | _ => []

/-- It writes the file back. -/
def FileOp.flushes : FileOp → Bool
  | .getdev | .readlabel | .devLseek => false
  | _ => true

/-! ## Nodes and numbers -/

/-- The nodes that `xfs_freefs` deletes. -/
def freefsDeletes : ℕ → Nodes → Ptr → List Ptr
  | 0, _, _ => []
  | fuel + 1, heap, fs =>
    match heap.get fs with
    | none => []
    | some node =>
      if node.refCount = 0 ∧ node.childCount = 0 then
        match node.parent with
        | none => [fs]
        | some parent =>
          let heap := heap.alter parent fun n => { n with childCount := n.childCount - 1 }
          freefsDeletes fuel heap parent ++ [fs]
      else []

/-- The file system with the numbers of its nodes, and the cookies that the guest holds, by device
    and number. -/
structure Session where
  world : World
  mapper : NativeTypeMapper Ptr
  held : List (U16 × U32)
deriving DecidableEq

/-- Nothing is mounted. -/
def Session.initial : Session := ⟨.initial, .empty, []⟩

/-- A request and its host. -/
structure Dispatch where
  host : Host
  request : Request
  /-- The index in the cookie for the result, before the call. -/
  old : U32
  /-- What searches without a result give. -/
  junk : Ptr × U32

section
variable (s : Session) (i : Dispatch)

/-- `MAP32TOVOIDP(ReadInt32(filep + 8))`. -/
def fetchIndex (k : U32) : Ptr := (s.mapper.getNative k).getD i.junk.1

/-- A cookie from the guest. -/
def fetchXFSC (fc : XfsCookie) : XfsCookie :=
  { fc with index := fetchIndex s i (.ofNat 32 fc.index) }

/-- The numbers that are searched before a call. -/
def fetches : List U32 :=
  i.request.cookies.map (fun fc => .ofNat 32 fc.index) ++
    match i.request with
    | .call c => if c.fetchesResult then [i.old] else []
    | .file _ _ => []

/-- The cookie that a call returns. -/
def returned : Except Fault (Option XfsCookie) → Option XfsCookie
  | .ok cookie => cookie
  | .error _ => none

/-- The maps after a call. -/
def remap (heap : Nodes) (result : Except Fault (Option XfsCookie)) (call : Call) :
    NativeTypeMapper Ptr :=
  match result with
  | .error _ => s.mapper
  | .ok (some fc) => s.mapper.putNative (BitVec.ofNat 32) fc.index
  | .ok none =>
    match call with
    | .release fc =>
      (freefsDeletes heap.length (withoutCookie heap fc.index) fc.index).foldl
        NativeTypeMapper.removeNative s.mapper
    | _ => s.mapper

/-- The cookies that the guest holds after a call. -/
def regain (mapper : NativeTypeMapper Ptr) (result : Except Fault (Option XfsCookie)) (c : Call) :
    List (U16 × U32) :=
  match result with
  | .error _ => s.held
  | .ok (some fc) => (fc.dev, (mapper.get32bit fc.index).getD i.junk.2) :: s.held
  | .ok none =>
    match c with
    | .release fc => s.held.erase (fc.dev, .ofNat 32 fc.index)
    | _ => s.held

/-- One dispatch, and for each search in the maps whether it found its key. -/
def dispatchStep : Session × List Bool :=
  let fetched := (fetches i).map fun k => (s.mapper.getNative k).isSome
  match i.request with
  | .file op fc =>
    let flushed := if op.flushes then [(s.mapper.get32bit (fetchXFSC s i fc).index).isSome] else []
    (s, fetched ++ flushed)
  | .call c =>
    let call := c.mapCookies (fetchXFSC s i)
    let (world, result) := step s.world (i.host, call)
    let mapper := remap s s.world.fs.heap result call
    let flushed := (call.flushes (fetchIndex s i i.old) (returned result)).map fun p =>
      (p.bind mapper.get32bit).isSome
    (⟨world, mapper, regain s i mapper result c⟩, fetched ++ flushed)

/-- The guest passes only cookies that it holds. -/
def GuestHolds : Prop := ∀ fc ∈ i.request.cookies, (fc.dev, BitVec.ofNat 32 fc.index) ∈ s.held
deriving Decidable

/-- No counter wraps round, and there are fewer nodes than numbers. -/
def Allowed : Prop := GuestHolds s i ∧ Fits s.world ∧ s.mapper.a2n.length < 2 ^ 32
deriving Decidable

end

/-! ## Where the searches find their keys -/

section
variable (host : Host) (fs : State)

/-- The path of a name in a directory, for which `p` holds. -/
def HasPath (dir : XfsCookie) (fname : Str) (p : Str → Prop) : Prop :=
  ∃ path calls, cookie2Pathname host fs.heap (fs.mounts.lookup dir.dev) fs.heap.length dir.index
    (some fname) = some (path, calls) ∧ p path

/-- The host has what the call asks for, and the node of a released cookie stays. -/
def Ready : Call → Prop
  | .lookup dir name =>
    let fname := fetchName name
    if fname = [] ∨ fname = ['.'] then True
    else if fname = ['.', '.'] then
      ∃ node parent, fs.heap.get dir.index = some node ∧ node.parent = some parent
    else HasPath host fs dir fname fun path => ∃ mode, host.lstat path = .ok mode
  | .creat dir name => HasPath host fs dir (fetchName name) fun path =>
    host.answer .open [path] = none
  | .readdir dirh len =>
    (fs.mounts.lookup dirh.fc.dev).isSome ∧
      ∃ node e rest, fs.heap.get dirh.fc.index = some node ∧
        unread node.parent.isNone dirh.hostDir = e :: rest ∧
        inodeBytes dirh.flags + (entryText dirh.flags e).2.length ≤ len.toInt
  | .release fc => ∃ node, fs.heap.get fc.index = some node ∧
    ¬ (node.refCount = 1 ∧ node.childCount = 0)
  | _ => True

end

/-- The cookie for the result of `xfs_root` and `xfs_dupcookie` has the number of a node, and the
    call is `Ready`. -/
def Mapped (s : Session) (i : Dispatch) : Prop :=
  match i.request with
  | .file _ _ => True
  | .call c =>
    (c.fetchesResult = true → (s.mapper.getNative i.old).isSome = true) ∧
      Ready i.host s.world.fs (c.mapCookies (fetchXFSC s i))

/-! ## Calls that return a cookie -/

section
variable {host : Host} {fs : State}

/-- The call returns a cookie. -/
def Gives (call : Call) (host : Host) (fs : State) : Prop :=
  ∃ fc t, dispatch host call fs = .ok (some fc) t

variable {node : XfsFsFile} {dir : XfsCookie}

theorem share_ok {p : Ptr} (hp : fs.heap.get p = some node) :
    ∃ fc t, share dir p fs = .ok fc t := by
  unfold share
  rw [bind_of_ok _ (update_ok hp _)]
  exact ⟨_, _, rfl⟩

theorem gives_iff {call : Call} {x : Xfs XfsCookie} (hx : dispatch host call = some <$> x) :
    Gives call host fs ↔ ∃ fc t, x fs = .ok fc t := by
  unfold Gives
  rw [hx]
  constructor
  · rintro ⟨fc, t, h⟩
    obtain ⟨a, t', ha, h'⟩ := bind_ok.1 (by rwa [map_eq_pure_bind] at h)
    exact ⟨a, t', ha⟩
  · rintro ⟨fc, t, h⟩
    refine ⟨fc, t, ?_⟩
    rw [map_eq_pure_bind, bind_of_ok _ h]
    rfl

theorem exists_path (host : Host) (hr : Rooted XfsFsFile.parent fs.heap)
    (hn : fs.heap.get dir.index = some node) (fname : Str) :
    ∃ path log, pathname host dir (some fname) fs = .ok path { fs with log := log } ∧
      ∀ p, HasPath host fs dir fname p ↔ p path := by
  obtain ⟨root, ns, hc, hlen⟩ := Chain.exists hr hn
  refine ⟨_, _, pathname_eq hc hlen host (some fname), fun p => ?_⟩
  unfold HasPath
  rw [cookie2Pathname_eq hc hlen]
  constructor
  · rintro ⟨path, calls, heq, hp⟩
    cases heq
    exact hp
  · intro hp
    exact ⟨_, _, rfl, hp⟩

theorem newChild_gives {log : List Access} (hn : fs.heap.get dir.index = some node) (fname : Str) :
    ∃ fc t, (do
      let index ← newChild host dir.index fname
      pure { dir with index := index } : Xfs XfsCookie) { fs with log := log } = .ok fc t := by
  have hn' : ({ fs with log := log } : State).heap.get dir.index = some node := hn
  rw [bind_of_ok _ (newChild_ok hn' host fname)]
  exact ⟨_, _, rfl⟩

theorem gives_lookup_iff (hr : Rooted XfsFsFile.parent fs.heap)
    (hn : fs.heap.get dir.index = some node) (name : Str) :
    Gives (.lookup dir name) host fs ↔ Ready host fs (.lookup dir name) := by
  rw [gives_iff rfl]
  unfold Ready xfsLookup
  dsimp only
  by_cases hself : fetchName name = [] ∨ fetchName name = ['.']
  · rw [if_pos hself, if_pos hself]
    exact iff_of_true (share_ok hn) trivial
  · rw [if_neg hself, if_neg hself]
    by_cases hup : fetchName name = ['.', '.']
    · rw [if_pos hup, if_pos hup, bind_of_ok _ (deref_ok hn)]
      cases hp : node.parent with
      | none =>
        refine iff_of_false ?_ ?_
        · rintro ⟨_, _, ⟨⟩⟩
        · rintro ⟨node', parent, hn', hp'⟩
          rw [hn] at hn'
          cases hn'
          rw [hp] at hp'
          cases hp'
      | some parent =>
        obtain ⟨above, habove⟩ := hr.parent_live hn hp
        exact iff_of_true (share_ok habove) ⟨node, parent, hn, hp⟩
    · obtain ⟨path, log, hpath, hiff⟩ := exists_path host hr hn (fetchName name)
      rw [if_neg hup, if_neg hup, bind_of_ok _ hpath, hiff]
      unfold lstat
      cases hstat : host.lstat path with
      | ok mode => exact iff_of_true (newChild_gives hn _) ⟨mode, rfl⟩
      | error e =>
        refine iff_of_false ?_ ?_
        · rintro ⟨_, _, ⟨⟩⟩
        · rintro ⟨_, ⟨⟩⟩

theorem gives_creat_iff (hr : Rooted XfsFsFile.parent fs.heap)
    (hn : fs.heap.get dir.index = some node) (name : Str) :
    Gives (.creat dir name) host fs ↔ Ready host fs (.creat dir name) := by
  obtain ⟨path, log, hpath, hiff⟩ := exists_path host hr hn (fetchName name)
  rw [gives_iff rfl]
  unfold Ready xfsCreat
  dsimp only
  rw [hiff, bind_of_ok _ hpath]
  unfold sysCall check
  cases hopen : host.answer .open [path] with
  | none => exact iff_of_true (newChild_gives hn _) rfl
  | some e =>
    refine iff_of_false ?_ ?_
    · rintro ⟨_, _, ⟨⟩⟩
    · intro h
      cases h

theorem ready_readdir_iff {dirh : XfsDir} (hn : fs.heap.get dirh.fc.index = some node)
    (len : U16) : Ready host fs (.readdir dirh len) ↔ (fs.mounts.lookup dirh.fc.dev).isSome ∧
      ∃ e rest, unread node.parent.isNone dirh.hostDir = e :: rest ∧
        inodeBytes dirh.flags + (entryText dirh.flags e).2.length ≤ len.toInt := by
  refine and_congr_right fun _ => ?_
  constructor
  · rintro ⟨node', e, rest, hn', hu, hle⟩
    obtain rfl : node = node' := Option.some.inj (hn.symm.trans hn')
    exact ⟨e, rest, hu, hle⟩
  · rintro ⟨e, rest, hu, hle⟩
    exact ⟨node, e, rest, hn, hu, hle⟩

theorem gives_readdir_iff (hr : Rooted XfsFsFile.parent fs.heap) {dirh : XfsDir}
    (hn : fs.heap.get dirh.fc.index = some node) (len : U16) :
    Gives (.readdir dirh len) host fs ↔ Ready host fs (.readdir dirh len) := by
  rw [gives_iff rfl, ready_readdir_iff hn]
  unfold readdirCookie xfsReaddir
  rw [bind_assoc, bind_of_ok _ (rfl : (get : Xfs State) fs = .ok fs fs)]
  cases hdrv : fs.mounts.lookup dirh.fc.dev with
  | none =>
    refine iff_of_false ?_ ?_
    · rintro ⟨_, _, ⟨⟩⟩
    · rintro ⟨⟨⟩, -⟩
  | some drv =>
    rw [bind_assoc, bind_of_ok _ (deref_ok hn)]
    cases hu : unread node.parent.isNone dirh.hostDir with
    | nil =>
      refine iff_of_false ?_ ?_
      · rintro ⟨_, _, ⟨⟩⟩
      · rintro ⟨-, _, _, ⟨⟩, -⟩
    | cons e rest =>
      obtain ⟨log, hw⟩ := writeEntry_eq hr hn host len e
      have hint := BitVec.toInt_eq_toNat_cond len
      have hnone : ¬ inodeBytes dirh.flags + (entryText dirh.flags e).2.length ≤ len.toInt →
          ¬ ((some drv).isSome ∧ ∃ e' rest', e :: rest = e' :: rest' ∧
            inodeBytes dirh.flags + (entryText dirh.flags e').2.length ≤ len.toInt) := by
        rintro hno ⟨-, e', rest', hu', hle⟩
        cases hu'
        exact hno hle
      rw [bind_assoc]
      by_cases hlen : len.toNat < inodeBytes dirh.flags + (entryText dirh.flags e).2.length
      · rw [if_pos hlen] at hw
        rw [bind_of_ok _ hw]
        refine iff_of_false ?_ (hnone (by split_ifs at hint <;> omega))
        rintro ⟨_, _, ⟨⟩⟩
      by_cases hneg : len.toInt < 0
      · rw [if_neg hlen, if_pos hneg] at hw
        rw [bind_of_error _ hw]
        refine iff_of_false ?_ (hnone (by omega))
        rintro ⟨_, _, ⟨⟩⟩
      · rw [if_neg hlen, if_neg hneg] at hw
        rw [bind_of_ok _ hw]
        refine iff_of_true ?_ ⟨rfl, e, rest, rfl, by split_ifs at hint <;> omega⟩
        have hn' : ({ fs with log := log } : State).heap.get dirh.fc.index = some node := hn
        rw [bind_assoc, bind_of_ok _ (newChild_ok hn' host e.name.chars)]
        exact ⟨_, _, rfl⟩

end

/-! ## Which nodes are live -/

theorem live_xfsFreefs (fuel : ℕ) : ∀ {heap : Nodes} {k : Ptr} (p : Ptr),
    (∃ n, (xfsFreefs fuel heap k).get p = some n) ↔
      (∃ n, heap.get p = some n) ∧ p ∉ freefsDeletes fuel heap k := by
  induction fuel with
  | zero => exact fun p => (and_iff_left not_mem_nil).symm
  | succ fuel ih =>
    intro heap k p
    unfold xfsFreefs freefsDeletes
    cases hk : heap.get k with
    | none => exact (and_iff_left not_mem_nil).symm
    | some node =>
      dsimp only
      by_cases hdead : node.refCount = 0 ∧ node.childCount = 0
      · rw [if_pos hdead, if_pos hdead]
        cases node.parent with
        | none =>
          rw [Heap.get_free, mem_singleton]
          by_cases hp : p = k <;> simp [hp]
        | some parent =>
          rw [Heap.get_free, mem_append, mem_singleton]
          by_cases hp : p = k
          · simp [hp]
          · rw [if_neg hp, ih, live_alter]
            simp [hp]
      · rw [if_neg hdead, if_neg hdead]
        exact (and_iff_left not_mem_nil).symm

variable {w : World} {host : Host} {call : Call}

/-- The nodes that are live after a call. -/
def LiveAfter (w : World) (call : Call) (result : Except Fault (Option XfsCookie))
    (p : Ptr) : Prop :=
  match result with
  | .error _ => ∃ n, w.fs.heap.get p = some n
  | .ok (some fc) => p = fc.index ∨ ∃ n, w.fs.heap.get p = some n
  | .ok none =>
    match call with
    | .release fc =>
      (∃ n, w.fs.heap.get p = some n) ∧
        p ∉ freefsDeletes w.fs.heap.length (withoutCookie w.fs.heap fc.index) fc.index
    | _ => ∃ n, w.fs.heap.get p = some n

variable {heap : Nodes}

theorem live_of_quiet {heap' : Nodes} (hq : Quiet heap heap') (p : Ptr) :
    (∃ n, heap'.get p = some n) ↔ ∃ n, heap.get p = some n := by
  rcases hq with rfl | ⟨q, node, -, rfl⟩
  · exact .rfl
  · exact live_alter

theorem live_enter {heap' : Nodes} {k : Ptr} {node : XfsFsFile}
    (hheap : ∀ p, (∃ n, heap'.get p = some n) ↔ ∃ n, heap.get p = some n) (p : Ptr) :
    (∃ n, Heap.get ((k, node) :: heap') p = some n) ↔ p = k ∨ ∃ n, heap.get p = some n := by
  rw [Heap.get_cons]
  by_cases hp : p = k
  · simp [hp]
  · rw [if_neg hp, hheap, or_iff_right hp]

/-- A cookie that is returned is on a node that is new or was live before. -/
theorem live_of_gain {C : List XfsCookie} {T : List Target} {fs : State} {fc : XfsCookie}
    (hr : Rooted XfsFsFile.parent fs.heap)
    (hlive : ∀ fc ∈ C, ∃ node, fs.heap.get fc.index = some node) (hg : Gain host fs C T fc heap)
    (p : Ptr) : (∃ n, heap.get p = some n) ↔ p = fc.index ∨ ∃ n, fs.heap.get p = some n := by
  have hcookie : ∀ (k : Ptr), (∃ n, fs.heap.get k = some n) →
      ((∃ n, (withCookie fs.heap k).get p = some n) ↔ p = k ∨ ∃ n, fs.heap.get p = some n) := by
    intro k hk
    rw [withCookie, live_alter]
    refine ⟨.inr, ?_⟩
    rintro (rfl | h)
    · exact hk
    · exact h
  cases hg with
  | root hm hi =>
    rw [hi]
    exact live_enter (fun _ => .rfl) p
  | child hd ht hdev hi =>
    rw [hi]
    exact live_enter (fun _ => live_alter) p
  | dup ho hn hp hdev hi =>
    rw [hi]
    exact live_enter (fun _ => live_alter) p
  | @same dir hd hf =>
    have hi : fc.index = dir.index := congrArg Handle.index hf
    exact hcookie _ (hi ▸ hlive dir hd)
  | up hd hn hp hdev => exact hcookie _ (hr.parent_live hn hp)

section
variable {t : State} {fc : XfsCookie}

theorem Step.live_of_held (h : Step host call w ⟨t, w.held⟩) (hheld : Held w (host, call))
    (p : Ptr) : (∃ n, t.heap.get p = some n) ↔ ∃ n, w.fs.heap.get p = some n := by
  generalize hw' : (⟨t, w.held⟩ : World) = w' at h
  have hlen : w'.held.length = w.held.length := by rw [← hw']
  have ht := congrArg World.fs hw'
  cases h with
  | @quiet t' hq =>
    obtain rfl : t = t' := ht
    exact live_of_quiet hq.heap p
  | @mount t' hh hl hm =>
    obtain rfl : t = t' := ht
    rw [hh]
  | gain hg => simp at hlen
  | @release fc node t' hc hn href hr =>
    subst hc
    have hmem := hheld fc mem_cons_self
    have hpos := length_pos_of_mem hmem
    rw [length_erase_of_mem hmem] at hlen
    omega

theorem Step.live_of_gain (h : Step host call w ⟨t, fc.handle :: w.held⟩) (hw : Inv w)
    (hheld : Held w (host, call)) (p : Ptr) :
    (∃ n, t.heap.get p = some n) ↔ p = fc.index ∨ ∃ n, w.fs.heap.get p = some n := by
  generalize hw' : (⟨t, fc.handle :: w.held⟩ : World) = w' at h
  have hlen : w'.held.length = w.held.length + 1 := by rw [← hw', length_cons]
  have ht := congrArg World.fs hw'
  have hh := congrArg World.held hw'
  cases h with
  | quiet hq => simp at hlen
  | mount hh hl hm => simp at hlen
  | @gain fc' t' hg =>
    have hi : fc.index = fc'.index := congrArg Handle.index (List.cons.inj hh).1
    rw [hi, show t = t' from ht]
    exact HostFs.live_of_gain hw.counted.rooted (fun fc hfc => hw.live _ (hheld fc hfc)) hg.heap p
  | @release fc' node t' hc hn href hr =>
    have hle : (w.held.erase fc'.handle).length ≤ w.held.length := length_erase_le
    have hlen' : (w.held.erase fc'.handle).length = w.held.length + 1 := hlen
    omega

theorem Step.live_of_release (h : Step host (.release fc) w ⟨t, w.held.erase fc.handle⟩)
    (hheld : Held w (host, .release fc)) (p : Ptr) :
    (∃ n, t.heap.get p = some n) ↔ (∃ n, w.fs.heap.get p = some n) ∧
      p ∉ freefsDeletes w.fs.heap.length (withoutCookie w.fs.heap fc.index) fc.index := by
  have hmem := hheld fc mem_cons_self
  have hpos := length_pos_of_mem hmem
  generalize hw' : (⟨t, w.held.erase fc.handle⟩ : World) = w' at h
  have hlen : w'.held.length = w.held.length - 1 := by rw [← hw', length_erase_of_mem hmem]
  have ht := congrArg World.fs hw'
  cases h with
  | quiet hq =>
    have hlen' : w.held.length = w.held.length - 1 := hlen
    omega
  | mount hh hl hm =>
    have hlen' : w.held.length = w.held.length - 1 := hlen
    omega
  | gain hg =>
    have hlen' : w.held.length + 1 = w.held.length - 1 := hlen
    omega
  | @release fc' node t' hc hn href hr =>
    cases hc
    rw [show t.heap = _ from (congrArg State.heap ht).trans hr.heap, live_xfsFreefs,
      withoutCookie, live_alter]

end

theorem step_live (hw : Inv w) (hheld : Held w (host, call)) (p : Ptr) :
    (∃ n, (step w (host, call)).1.fs.heap.get p = some n) ↔
    LiveAfter w call (step w (host, call)).2 p := by
  have hstep := hw.step_cases hheld
  unfold step at hstep ⊢
  cases hd : dispatch host call w.fs with
  | error e t =>
    rw [hd] at hstep
    exact hstep.live_of_held hheld p
  | ok r t =>
    rw [hd] at hstep
    cases r with
    | some fc => exact hstep.live_of_gain hw hheld p
    | none =>
      unfold LiveAfter
      dsimp only at hstep ⊢
      split
      · exact hstep.live_of_release hheld p
      · rename_i hne
        have hrel : call.released = none := by
          cases call with
          | release fc => exact absurd rfl (hne fc)
          | _ => rfl
        rw [hrel] at hstep
        exact hstep.live_of_held hheld p

/-! ## Numbers and nodes -/

/-- The nodes with a number are the live ones, and the cookies of the guest have the numbers of the
    nodes that are held. -/
structure Session.Inv (s : Session) : Prop where
  world : HostFs.Inv s.world
  bijective : s.mapper.Bijective
  keys : ∀ p, (s.mapper.get32bit p).isSome = true ↔ ∃ n, s.world.fs.heap.get p = some n
  held : List.Forall₂ (fun g h => g.1 = h.dev ∧
    s.mapper.get32bit h.index = some g.2) s.held s.world.held

theorem Session.Inv.initial : Session.Inv .initial := by
  refine ⟨.initial, NativeTypeMapper.bijective_empty, fun p => ?_, .nil⟩
  refine iff_of_false ?_ ?_
  · intro h
    cases h
  · rintro ⟨n, h⟩
    cases h

theorem cookies_mapCookies (f : XfsCookie → XfsCookie) (c : Call) :
    (c.mapCookies f).cookies = c.cookies.map f := by
  cases c <;> rfl

section
variable {α β : Type} {R S : α → β → Prop}

variable {l : List α} {m : List β}

theorem exists_of_mem_forall₂ (h : List.Forall₂ R l m) {a : α} (ha : a ∈ l) : ∃ b ∈ m, R a b := by
  induction h with
  | nil => cases ha
  | cons hab _ ih =>
    rcases List.mem_cons.1 ha with rfl | ha
    · exact ⟨_, mem_cons_self, hab⟩
    · obtain ⟨b, hb, hr⟩ := ih ha
      exact ⟨b, mem_cons_of_mem _ hb, hr⟩

theorem forall₂_of_mem (h : List.Forall₂ R l m) (hS : ∀ a, ∀ b ∈ m, R a b → S a b) :
    List.Forall₂ S l m := by
  induction h with
  | nil => exact .nil
  | cons hab _ ih =>
    exact .cons (hS _ _ mem_cons_self hab) (ih fun a b hb => hS a b (mem_cons_of_mem _ hb))

theorem forall₂_erase [BEq α] [LawfulBEq α] [BEq β] [LawfulBEq β] (h : List.Forall₂ R l m)
    {a : α} {b : β} (hleft : ∀ a', R a' b → a' = a) (hright : ∀ b', R a b' → b' = b) :
    List.Forall₂ R (l.erase a) (m.erase b) := by
  induction h with
  | nil => exact .nil
  | @cons a' b' l m hab hrest ih =>
    by_cases ha : a' = a
    · obtain rfl := ha
      rw [hright b' hab, erase_cons_head, erase_cons_head]
      exact hrest
    · have hb : b' ≠ b := by
        rintro rfl
        exact ha (hleft a' hab)
      rw [erase_cons_tail (by simpa using ha), erase_cons_tail (by simpa using hb)]
      exact .cons hab ih

end

section
variable {s : Session} {i : Dispatch}

variable {fc : XfsCookie}

/-- The call on the cookies that were fetched. -/
abbrev fetchedCall (s : Session) (i : Dispatch) (c : Call) : Call := c.mapCookies (fetchXFSC s i)

/-- The world after the call, and its result. -/
abbrev outcome (s : Session) (i : Dispatch) (c : Call) := step s.world (i.host, fetchedCall s i c)

theorem Session.Inv.fetched (hs : s.Inv) (hfc : (fc.dev, BitVec.ofNat 32 fc.index) ∈ s.held) :
    ∃ p, s.mapper.getNative (.ofNat 32 fc.index) = some p ∧
    (⟨fc.dev, p⟩ : Handle) ∈ s.world.held := by
  obtain ⟨h, hh, hdev, hnum⟩ := exists_of_mem_forall₂ hs.held hfc
  refine ⟨h.index, (hs.bijective _ _).2 hnum, ?_⟩
  rw [show (⟨fc.dev, h.index⟩ : Handle) = h from by rw [show fc.dev = h.dev from hdev]]
  exact hh

theorem Session.Inv.fetchXFSC_mem (hs : s.Inv) (hfc : (fc.dev, BitVec.ofNat 32 fc.index) ∈ s.held) :
    (fetchXFSC s i fc).handle ∈ s.world.held := by
  obtain ⟨p, hp, hmem⟩ := hs.fetched hfc
  have hindex : (fetchXFSC s i fc).handle = ⟨fc.dev, p⟩ := by
    rw [fetchXFSC, fetchIndex, hp]
    rfl
  rwa [hindex]

variable {c : Call}

/-- A call of the guest on cookies that it holds is one on cookies that are held. -/
theorem Session.Inv.holds (hs : s.Inv) (hc : i.request = .call c) (hg : GuestHolds s i) :
    Held s.world (i.host, fetchedCall s i c) := by
  intro fc hfc
  rw [cookies_mapCookies] at hfc
  obtain ⟨fc', hfc', rfl⟩ := List.mem_map.1 hfc
  exact hs.fetchXFSC_mem (hg fc' (by rw [hc]; exact hfc'))

theorem Session.Inv.remap (hs : s.Inv) (hroom : s.mapper.a2n.length < 2 ^ 32) (call : Call)
    (result : Except Fault (Option XfsCookie)) :
    (HostFs.remap s s.world.fs.heap result call).Bijective ∧
      (∀ p, ((HostFs.remap s s.world.fs.heap result call).get32bit p).isSome = true ↔
        LiveAfter s.world call result p) ∧
      ∀ p k, s.mapper.get32bit p = some k → LiveAfter s.world call result p →
        (HostFs.remap s s.world.fs.heap result call).get32bit p = some k := by
  unfold HostFs.remap LiveAfter
  cases result with
  | error e => exact ⟨hs.bijective, hs.keys, fun p k h _ => h⟩
  | ok r =>
    cases r with
    | some fc =>
      obtain ⟨hb, hkeys, hkeep⟩ :=
        NativeTypeMapper.putNative_spec hs.bijective hroom (.ofNat 32) fc.index
      refine ⟨hb, fun p => ?_, fun p k h _ => hkeep p k h⟩
      rw [hkeys, hs.keys]
    | none =>
      dsimp only
      split
      · rename_i fc
        obtain ⟨hb, hget⟩ := NativeTypeMapper.foldl_removeNative_spec
          (freefsDeletes s.world.fs.heap.length (withoutCookie s.world.fs.heap fc.index)
            fc.index) hs.bijective
        refine ⟨hb, fun p => ?_, fun p k h hlive => ?_⟩
        · rw [hget, ← hs.keys]
          split_ifs with hp <;> simp [hp]
        · rw [hget, if_neg hlive.2, h]
      · exact ⟨hs.bijective, hs.keys, fun p k h _ => h⟩

theorem step_held (w : World) (i : Host × Call) : (step w i).1.held =
      match (step w i).2 with
      | .error _ => w.held
      | .ok (some fc) => fc.handle :: w.held
      | .ok none => (i.2.released.map w.held.erase).getD w.held := by
  unfold step
  cases dispatch i.1 i.2 w.fs with
  | error e t => rfl
  | ok r t => cases r <;> rfl

theorem dispatchStep_call (hc : i.request = .call c) : (dispatchStep s i).1 = ⟨(outcome s i c).1,
        HostFs.remap s s.world.fs.heap (outcome s i c).2 (fetchedCall s i c),
        regain s i (HostFs.remap s s.world.fs.heap (outcome s i c).2
          (fetchedCall s i c)) (outcome s i c).2 c⟩ := by
  unfold dispatchStep
  rw [hc]

theorem dispatchStep_file {op : FileOp} (hc : i.request = .file op fc) :
    (dispatchStep s i).1 = s := by
  unfold dispatchStep
  rw [hc]

theorem Session.Inv.erase (hs : s.Inv) (hfc : (fc.dev, BitVec.ofNat 32 fc.index) ∈ s.held) :
    List.Forall₂ (fun g h => g.1 = h.dev ∧ s.mapper.get32bit h.index = some g.2)
      (s.held.erase (fc.dev, BitVec.ofNat 32 fc.index))
        (s.world.held.erase (fetchXFSC s i fc).handle) := by
  obtain ⟨p, hp, -⟩ := hs.fetched hfc
  have hhandle : (fetchXFSC s i fc).handle = ⟨fc.dev, p⟩ := by
    rw [fetchXFSC, fetchIndex, hp]
    rfl
  have hnumber := (hs.bijective _ _).1 hp
  rw [hhandle]
  refine forall₂_erase hs.held (fun g hg => ?_) fun h hh => ?_
  · exact Prod.ext hg.1 (Option.some.inj (hg.2.symm.trans hnumber))
  · have hindex := (hs.bijective _ _).2 hh.2
    rw [hp, Option.some.injEq] at hindex
    rw [hindex, show fc.dev = h.dev from hh.1]

theorem Session.Inv.regain (hs : s.Inv) (hc : i.request = .call c) (hi : Allowed s i) :
    List.Forall₂ (fun g h => g.1 = h.dev ∧ (dispatchStep s i).1.mapper.get32bit h.index = some g.2)
      (dispatchStep s i).1.held (dispatchStep s i).1.world.held := by
  have hheld := hs.holds hc hi.1
  have hlive := (hs.world.step hheld hi.2.1).live
  have hafter := step_live hs.world hheld
  rw [dispatchStep_call hc]
  obtain ⟨-, hkeys, hkeep⟩ := hs.remap hi.2.2 (fetchedCall s i c)
    (outcome s i c).2
  have hmap : ∀ h ∈ (outcome s i c).1.held,
      ∀ k, s.mapper.get32bit h.index = some k →
        (HostFs.remap s s.world.fs.heap (outcome s i c).2
          (fetchedCall s i c)).get32bit h.index = some k := by
    intro h hh k hk
    exact hkeep _ k hk ((hafter _).1 (hlive h hh))
  rw [step_held] at hmap ⊢
  generalize (outcome s i c).2 = result at hkeys hmap ⊢
  generalize HostFs.remap s s.world.fs.heap result (fetchedCall s i c) = mapper at hkeys hmap ⊢
  cases result with
  | error e =>
    exact forall₂_of_mem hs.held fun g h hh hr => ⟨hr.1, hmap h hh _ hr.2⟩
  | ok r =>
    cases r with
    | some fc =>
      obtain ⟨k, hk⟩ := Option.isSome_iff_exists.1 ((hkeys fc.index).2 (.inl rfl))
      refine .cons ⟨rfl, ?_⟩ (forall₂_of_mem hs.held fun g h hh hr =>
        ⟨hr.1, hmap h (mem_cons_of_mem _ hh) _ hr.2⟩)
      rw [hk]
      exact hk
    | none =>
      cases c with
      | release fc =>
        have herase := hs.erase (i := i) (hi.1 fc (by rw [hc]; exact mem_cons_self))
        have hrest : List.Forall₂ (fun g h => g.1 = h.dev ∧ mapper.get32bit h.index = some g.2)
            (s.held.erase (fc.dev, .ofNat 32 fc.index))
              (s.world.held.erase (fetchXFSC s i fc).handle) :=
          forall₂_of_mem herase fun g h hh hr => ⟨hr.1, hmap h hh _ hr.2⟩
        exact hrest
      | _ => exact forall₂_of_mem hs.held fun g h hh hr => ⟨hr.1, hmap h hh _ hr.2⟩

theorem Session.Inv.step (hs : s.Inv) (hi : Allowed s i) : (dispatchStep s i).1.Inv := by
  cases hc : i.request with
  | file op fc =>
    rw [dispatchStep_file hc]
    exact hs
  | call c =>
    have hheld := hs.holds hc hi.1
    have hregain := hs.regain hc hi
    rw [dispatchStep_call hc] at hregain ⊢
    obtain ⟨hb, hkeys, -⟩ := hs.remap hi.2.2 (fetchedCall s i c)
      (outcome s i c).2
    exact ⟨hs.world.step hheld hi.2.1, hb,
      fun p => (hkeys p).trans (step_live hs.world hheld p).symm, hregain⟩

theorem Session.Inv.run {is : List Dispatch} (h : Along dispatchStep Allowed .initial is) :
    (Lib.run dispatchStep .initial is).Inv :=
  run_inv (P := Session.Inv) (fun _ _ hs hi => hs.step hi) is .initial .initial h

/-! ## Searches -/

/-- Every search finds its key. -/
def Finds (s : Session) (i : Dispatch) : Prop := ∀ found ∈ (dispatchStep s i).2, found = true

theorem Session.Inv.fetches_iff (hs : s.Inv) (hi : GuestHolds s i) :
    (∀ k ∈ fetches i, (s.mapper.getNative k).isSome = true) ↔
      ∀ c, i.request = .call c → c.fetchesResult = true →
      (s.mapper.getNative i.old).isSome = true := by
  have hcookies : ∀ k ∈ i.request.cookies.map (fun fc => .ofNat 32 fc.index),
      (s.mapper.getNative k).isSome = true := by
    intro k hk
    obtain ⟨fc, hfc, rfl⟩ := List.mem_map.1 hk
    obtain ⟨p, hp, -⟩ := hs.fetched (hi fc hfc)
    rw [hp]
    rfl
  constructor
  · intro h c hc hresult
    refine h i.old (mem_append_right _ ?_)
    rw [hc]
    dsimp only
    rw [if_pos hresult]
    exact mem_cons_self
  · intro h k hk
    rcases List.mem_append.1 hk with hk | hk
    · exact hcookies k hk
    · cases hc : i.request with
      | file op fc =>
        rw [hc] at hk
        cases hk
      | call c =>
        rw [hc] at hk
        dsimp only at hk
        by_cases hresult : c.fetchesResult = true
        · rw [if_pos hresult, mem_singleton] at hk
          exact hk ▸ h c hc hresult
        · rw [if_neg hresult] at hk
          cases hk

/-- The searches of `flushXFSC` find the nodes that are live after the call. -/
theorem Session.Inv.finds_call_iff (hs : s.Inv) (hi : Allowed s i) (hc : i.request = .call c) :
    Finds s i ↔ (c.fetchesResult = true → (s.mapper.getNative i.old).isSome = true) ∧
      ∀ o ∈ (fetchedCall s i c).flushes (fetchIndex s i i.old) (returned (outcome s i c).2),
        ∃ p, o = some p ∧ LiveAfter s.world (fetchedCall s i c) (outcome s i c).2 p := by
  obtain ⟨-, hkeys, -⟩ := hs.remap hi.2.2 (fetchedCall s i c)
    (outcome s i c).2
  have hfetch := hs.fetches_iff hi.1
  rw [hc] at hfetch
  unfold Finds dispatchStep
  rw [hc]
  rw [forall_mem_append, forall_mem_map, forall_mem_map, hfetch]
  refine and_congr ⟨fun h => h c rfl, fun h c' hc' => by cases hc'; exact h⟩ ?_
  refine forall₂_congr fun o ho => ?_
  cases o with
  | none =>
    refine iff_of_false ?_ ?_
    · intro h
      cases h
    · rintro ⟨p, h, -⟩
      cases h
  | some p =>
    rw [Option.bind_some, hkeys]
    constructor
    · intro h
      exact ⟨p, rfl, h⟩
    · rintro ⟨q, hq, h⟩
      cases hq
      exact h

theorem returned_isSome_iff : (∃ fc, returned (step w (host, call)).2 = some fc) ↔
    Gives call host w.fs := by
  unfold step Gives returned
  cases dispatch host call w.fs with
  | error e t => simp
  | ok r t => cases r <;> simp

theorem liveAfter_of_live {result : Except Fault (Option XfsCookie)} (hcall : call.released = none)
    {p : Ptr} (hp : ∃ n, w.fs.heap.get p = some n) : LiveAfter w call result p := by
  cases result with
  | error e => exact hp
  | ok r =>
    cases r with
    | some fc => exact .inr hp
    | none =>
      cases call with
      | release fc => cases hcall
      | _ => exact hp

theorem liveAfter_returned {result : Except Fault (Option XfsCookie)}
    (h : returned result = some fc) : LiveAfter w call result fc.index := by
  cases result with
  | error e => cases h
  | ok r =>
    cases h
    exact .inl rfl

/-- Calls that write back their directory and, where they fail, a null pointer. -/
theorem flushes_result_iff (hcall : call.released = none) {p : Ptr}
    (hp : ∃ n, w.fs.heap.get p = some n) :
    (∀ o ∈ [some p, (returned (step w (host, call)).2).map XfsCookie.index],
      ∃ q, o = some q ∧ LiveAfter w call (step w (host, call)).2 q) ↔ Gives call host w.fs := by
  rw [← returned_isSome_iff, forall_mem_cons, forall_mem_singleton]
  constructor
  · rintro ⟨-, q, hq, -⟩
    obtain ⟨fc, hfc, -⟩ := Option.map_eq_some_iff.1 hq
    exact ⟨fc, hfc⟩
  · rintro ⟨fc, hfc⟩
    exact ⟨⟨p, rfl, liveAfter_of_live hcall hp⟩, fc.index, congrArg _ hfc, liveAfter_returned hfc⟩

/-- Calls that write back their result or what they fetched in its place. -/
theorem liveAfter_result (hcall : call.released = none) {old : Ptr}
    (hold : ∃ n, w.fs.heap.get old = some n) :
    LiveAfter w call (step w (host, call)).2
      (((returned (step w (host, call)).2).map XfsCookie.index).getD old) := by
  cases hr : returned (step w (host, call)).2 with
  | none => exact liveAfter_of_live hcall hold
  | some fc => exact liveAfter_returned hr

variable {node : XfsFsFile}

theorem dispatch_release (hn : w.fs.heap.get fc.index = some node) :
    (step w (host, .release fc)).2 = if node.refCount = 0 then .error (.tos .eaccdn)
      else .ok none := by
  have hd : ∃ t, dispatch host (.release fc) w.fs =
      if node.refCount = 0 then .error (.tos .eaccdn) t else .ok none t := by
    show ∃ t, (xfsRelease fc >>= fun _ => pure none) w.fs = _
    unfold xfsRelease
    rw [bind_assoc, bind_of_ok _ (deref_ok hn)]
    by_cases href : node.refCount = 0
    · simp only [if_pos href]
      exact ⟨_, rfl⟩
    · simp only [if_neg href]
      rw [bind_assoc, bind_of_ok _ (update_ok hn _)]
      exact ⟨_, rfl⟩
  obtain ⟨t, ht⟩ := hd
  unfold step
  rw [ht]
  split_ifs <;> rfl

theorem mem_freefsDeletes_iff {heap : Nodes} {k : Ptr} (hk : heap.get k = some node) (fuel : ℕ) :
    k ∈ freefsDeletes (fuel + 1) heap k ↔ node.refCount = 0 ∧ node.childCount = 0 := by
  unfold freefsDeletes
  rw [hk]
  dsimp only
  by_cases hdead : node.refCount = 0 ∧ node.childCount = 0
  · rw [if_pos hdead]
    refine iff_of_true ?_ hdead
    cases node.parent with
    | none => exact mem_cons_self
    | some parent => exact mem_append_right _ mem_cons_self
  · rw [if_neg hdead]
    exact iff_of_false not_mem_nil hdead

theorem liveAfter_release_iff (hn : w.fs.heap.get fc.index = some node) :
    LiveAfter w (.release fc) (step w (host, .release fc)).2 fc.index ↔
    Ready host w.fs (.release fc) := by
  have hready : Ready host w.fs (.release fc) ↔ ¬ (node.refCount = 1 ∧ node.childCount = 0) := by
    constructor
    · rintro ⟨node', hn', h⟩
      rw [hn] at hn'
      cases hn'
      exact h
    · intro h
      exact ⟨node, hn, h⟩
  rw [hready, dispatch_release hn]
  by_cases href : node.refCount = 0
  · -- the call fails
    rw [if_pos href]
    refine iff_of_true ⟨node, hn⟩ ?_
    rintro ⟨hone, -⟩
    rw [href] at hone
    exact absurd hone (by decide)
  · have hlen : w.fs.heap.length = w.fs.heap.length - 1 + 1 := by
      have := length_pos_of_mem (Heap.mem_of_get hn)
      omega
    have hget : (withoutCookie w.fs.heap fc.index).get fc.index =
        some { node with refCount := node.refCount - 1 } := by
      rw [withoutCookie, Heap.get_alter, if_pos rfl, hn]
      rfl
    have hone : node.refCount - 1 = 0 ↔ node.refCount = 1 := sub_eq_zero
    rw [if_neg href]
    unfold LiveAfter
    dsimp only
    rw [hlen, mem_freefsDeletes_iff hget, and_iff_right ⟨node, hn⟩, hone]

theorem flushes_iff (hw : HostFs.Inv w) (hheld : Held w (host, call)) {old : Ptr}
    (hold : call.fetchesResult = true → ∃ n, w.fs.heap.get old = some n) :
    (∀ o ∈ call.flushes old (returned (step w (host, call)).2),
      ∃ p, o = some p ∧ LiveAfter w call (step w (host, call)).2 p) ↔ Ready host w.fs call := by
  have hlive := hw.live_cookies hheld
  have hr := hw.counted.rooted
  have hone : ∀ (fc : XfsCookie), fc ∈ call.cookies → call.released = none →
      ∀ o ∈ [some fc.index], ∃ p, o = some p ∧ LiveAfter w call (step w (host, call)).2 p := by
    intro fc hfc hrel o ho
    exact ⟨fc.index, List.mem_singleton.1 ho, liveAfter_of_live hrel (hlive fc hfc)⟩
  cases call with
  | lookup dir name =>
    obtain ⟨node, hn⟩ := hlive dir mem_cons_self
    exact (flushes_result_iff rfl ⟨node, hn⟩).trans (gives_lookup_iff hr hn name)
  | creat dir name =>
    obtain ⟨node, hn⟩ := hlive dir mem_cons_self
    exact (flushes_result_iff rfl ⟨node, hn⟩).trans (gives_creat_iff hr hn name)
  | readdir dirh len =>
    obtain ⟨node, hn⟩ := hlive dirh.fc mem_cons_self
    exact (flushes_result_iff rfl ⟨node, hn⟩).trans (gives_readdir_iff hr hn len)
  | root dev =>
    refine iff_of_true (fun o ho => ?_) trivial
    exact ⟨_, List.mem_singleton.1 ho, liveAfter_result rfl (hold rfl)⟩
  | dupcookie oldCook =>
    refine iff_of_true ?_ trivial
    refine List.forall_mem_cons.2 ⟨⟨_, rfl, liveAfter_result rfl (hold rfl)⟩, ?_⟩
    exact hone oldCook mem_cons_self rfl
  | release fc =>
    obtain ⟨node, hn⟩ := hlive fc mem_cons_self
    rw [← liveAfter_release_iff hn]
    constructor
    · intro h
      obtain ⟨p, hp, hafter⟩ := h _ mem_cons_self
      cases hp
      exact hafter
    · intro h o ho
      exact ⟨_, List.mem_singleton.1 ho, h⟩
  | getxattr fc | stat64 fc | remove fc name | pathconf fc which | fscntl fc cmd
  | devDatime fc wflag | devOpen fc flags => exact iff_of_true (hone fc mem_cons_self rfl) trivial
  | opendir dirh flags => exact iff_of_true (hone dirh.fc mem_cons_self rfl) trivial
  | _ => exact iff_of_true (fun o ho => by cases ho) trivial

/-- In a session that keeps the invariant, a dispatch finds its keys exactly if they are mapped. -/
theorem Session.Inv.finds_iff (hs : s.Inv) (hi : Allowed s i) : Finds s i ↔ Mapped s i := by
  unfold Mapped
  cases hc : i.request with
  | file op fc =>
    have hfc : (fc.dev, .ofNat 32 fc.index) ∈ s.held := hi.1 fc (by rw [hc]; exact mem_cons_self)
    have hfetch := (hs.fetches_iff hi.1).2 fun c hcall => by rw [hc] at hcall; cases hcall
    have hflush : (s.mapper.get32bit (fetchXFSC s i fc).index).isSome = true :=
      (hs.keys _).2 (hs.world.live _ (hs.fetchXFSC_mem hfc))
    refine iff_of_true ?_ trivial
    unfold Finds dispatchStep
    rw [hc]
    rw [forall_mem_append, forall_mem_map]
    refine ⟨hfetch, fun found hfound => ?_⟩
    split_ifs at hfound
    · rw [List.mem_singleton.1 hfound, hflush]
    · cases hfound
  | call c =>
    rw [hs.finds_call_iff hi hc]
    refine and_congr_right fun hfound => flushes_iff hs.world (hs.holds hc hi.1) fun hresult => ?_
    have hfetches : c.fetchesResult = true := by
      cases c <;> exact hresult
    obtain ⟨p, hp⟩ := Option.isSome_iff_exists.1 (hfound hfetches)
    rw [fetchIndex, hp, Option.getD_some, ← hs.keys, (hs.bijective _ _).1 hp]
    rfl

/-- In every run of a guest that uses the cookies it holds, and in every state reached, the next
    dispatch finds all its keys exactly under these conditions. -/
theorem searches_iff (is : List Dispatch) (i : Dispatch)
    (h : Along dispatchStep Allowed .initial (is ++ [i])) :
    Finds (run dispatchStep .initial is) i ↔ Mapped (run dispatchStep .initial is) i := by
  rw [along_append] at h
  exact (Session.Inv.run h.1).finds_iff h.2.1

end

/-- A dispatch with zeros in the cookie for the result. -/
def request (host : Host) (call : Call) : Dispatch := ⟨host, .call call, 0, 0, 0⟩

/-- A drive is mounted, and the cookie of its root fetched. -/
def mounting : List Dispatch :=
  [request obliging (.init 2 [] ['/', 'r'] false 0 0 0), request obliging (.root 2)]

theorem lookup_finds_keys :
    Finds (run dispatchStep .initial mounting) (request obliging (.lookup (cookieAt 0) ['a'])) := by
  refine (searches_iff mounting (request obliging (.lookup (cookieAt 0) ['a']))
    (by decide +kernel)).2 ?_
  refine ⟨fun h => ?_, _, _, rfl, 0, rfl⟩
  cases h

/-- The searches that fail: of the first `xfs_root`, of a `xfs_lookup` that finds no file, and of
    the release of the only cookie of a node. -/
theorem searches_without_keys :
    Along dispatchStep Allowed .initial mounting ∧
      (dispatchStep (run dispatchStep .initial (mounting.take 1)) (request obliging (.root 2))).2 =
        [false, true] ∧
      (dispatchStep (run dispatchStep .initial mounting)
        (request { obliging with lstat := fun _ => .error .enoent }
          (.lookup (cookieAt 0) ['a']))).2 =
          [true, true, false] ∧
      (dispatchStep (run dispatchStep .initial mounting)
        (request obliging (.release (cookieAt 0)))).2 =
        [true, false] := by
  decide +kernel

end Aranym.HostFs
