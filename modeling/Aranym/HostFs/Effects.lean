/-
  What a call of the host file system does.

  `step_cases` says it once for all calls: a call returns a new cookie and
  enters its node (`Gain`), releases a cookie, mounts a drive, or leaves the
  nodes alone; and every path it hands to the host was built by
  `cookie2Pathname` for one of the targets of the call.
-/
import Aranym.HostFs.Calls

namespace Aranym.HostFs

open List

open Lib

/-! ## Targets -/

/-- A cookie, and a name below it. -/
abbrev Target := XfsCookie × Option Str

variable (host : Host) (heap : Nodes)

/-- What `cookie2Pathname` builds for the target, and the paths that it asks the host about. -/
def built (s : State) (t : Target) : List Str :=
  match cookie2Pathname host s.heap (s.mounts.lookup t.1.dev) s.heap.length t.1.index t.2 with
  | none => []
  | some (buf, calls) => buf :: calls.map (·.2)

/-- The path is built. -/
def Builds (s : State) (t : Target) (path : Str) : Prop := path ∈ built host s t

/-- All that is ever in the buffer for the path of the target leaves room for the NUL: each name is
    put there as it is given, and asked for, before that of the host takes its place. -/
def InBuffer (s : State) (t : Target) : Prop :=
  ∀ path ∈ built host s t, path.length < maxPathNameLen
deriving Decidable

/-- A name for which `xfs_lookup` builds no path. -/
def selfOrParent (fname : Str) : Bool := fname = [] || fname = ['.'] || fname = ['.', '.']

/-- The cookies and names for which a call builds paths. -/
def Call.targets : Call → List Target
  | .init .. | .root _ | .dupcookie _ | .release _ => []
  | .lookup dir name => if selfOrParent (fetchName name) then [] else [(dir, some (fetchName name))]
  | .readdir dirh _ =>
    match heap.get dirh.fc.index with
    | none => []
    | some node =>
      (unread node.parent.isNone dirh.hostDir).head?.toList.map fun e =>
        (dirh.fc, some e.name.chars)
  | .creat dir name | .mkdir dir name | .rmdir dir name | .remove dir name | .symlink dir name _ =>
    [(dir, some (fetchName name))]
  | .dfree fc | .chmod fc | .readlink fc | .getxattr fc | .stat64 fc | .chattr fc _
  | .devDatime fc _ | .pathconf fc _ | .devOpen fc _ => [(fc, none)]
  | .opendir dirh _ => [(dirh.fc, none)]
  | .rename fc name fc' name' | .hardlink fc name fc' name' =>
    [(fc, some (fetchName name)), (fc', some (fetchName name'))]
  | .getname relto dir _ => [(relto, none), (dir, none)]
  | .fscntl dir cmd =>
    match cmd with
    | .mxKerXfsname | .fsInfo | .other => []
    | .fsUsage => [(dir, none)]
    | .futime name | .futimeUtc name | .fstat name | .fstat64 name => [(dir, name.map fetchName)]
    | .ftruncate name => [(dir, some (fetchName name))]

/-! ## Outcomes -/

/-- Every path handed to the host since `s` was built for one of the targets. -/
def Logged (T : List Target) (s t : State) : Prop :=
  ∀ a ∈ t.log, a ∈ s.log ∨ ∃ target ∈ T, a.dev = target.1.dev ∧ Builds host s target a.path

/-- After `s`, with a heap that meets `H`. -/
structure After (host : Host) (T : List Target) (s : State)
    (H : Nodes → Prop) (t : State) : Prop where
  heap : H t.heap
  mounts : t.mounts = s.mounts
  log : Logged host T s t

/-- The same nodes, one of them perhaps marked as created. -/
def Quiet (heap heap' : Nodes) : Prop :=
  heap' = heap ∨
    ∃ p node, heap.get p = some node ∧ heap' = heap.alter p fun n => { n with created := true }

/-- The heap with a new child of `p`. -/
def withChild (p : Ptr) (name : Str) : Nodes :=
  (host.new heap, ⟨some p, 1, 0, false, name⟩) ::
    heap.alter p fun n => { n with childCount := n.childCount + 1 }

/-- The heap with another cookie for `p`. -/
def withCookie (p : Ptr) : Nodes :=
  heap.alter p fun n => { n with refCount := n.refCount + 1 }

/-- The heap with a cookie less for `p`. -/
def withoutCookie (p : Ptr) : Nodes :=
  heap.alter p fun n => { n with refCount := n.refCount - 1 }

/-- How a call with the cookies `C` enters the node of the cookie it returns. -/
inductive Gain (host : Host) (s : State) (C : List XfsCookie) (T : List Target) :
    XfsCookie → Nodes → Prop
  | root {fc : XfsCookie} {drv : ExtDrive} (hm : s.mounts.lookup fc.dev = some drv)
      (hi : fc.index = host.new s.heap) :
      Gain host s C T fc ((host.new s.heap, ⟨none, 1, 0, false, drv.hostRoot⟩) :: s.heap)
  | child {fc dir : XfsCookie} {name : Str} (hd : dir ∈ C) (ht : (dir, some name) ∈ T)
      (hdev : fc.dev = dir.dev) (hi : fc.index = host.new s.heap) :
      Gain host s C T fc (withChild host s.heap dir.index name)
  | dup {fc old : XfsCookie} {node : XfsFsFile} {p : Ptr} (ho : old ∈ C)
      (hn : s.heap.get old.index = some node) (hp : node.parent = some p)
      (hdev : fc.dev = old.dev) (hi : fc.index = host.new s.heap) :
      Gain host s C T fc (withChild host s.heap p node.name)
  | same {fc dir : XfsCookie} (hd : dir ∈ C) (hf : fc.handle = dir.handle) :
      Gain host s C T fc (withCookie s.heap fc.index)
  | up {fc dir : XfsCookie} {node : XfsFsFile} (hd : dir ∈ C)
      (hn : s.heap.get dir.index = some node) (hp : node.parent = some fc.index)
      (hdev : fc.dev = dir.dev) :
      Gain host s C T fc (withCookie s.heap fc.index)

/-- Drives are added, none is replaced. -/
structure Mounted (mounts mounts' : Mounts) : Prop where
  old : ∀ dev drv, mounts.lookup dev = some drv → mounts'.lookup dev = some drv
  new : ∀ dev drv, mounts'.lookup dev = some drv →
    mounts.lookup dev = some drv ∨ RootOk drv.hostRoot

/-- One call on `w`. -/
inductive Step (host : Host) (call : Call) (w : World) : World → Prop
  | quiet {t : State} (ht : After host (call.targets w.fs.heap) w.fs (Quiet w.fs.heap) t) :
      Step host call w ⟨t, w.held⟩
  | gain {fc : XfsCookie} {t : State}
      (ht : After host (call.targets w.fs.heap) w.fs
        (Gain host w.fs call.cookies (call.targets w.fs.heap) fc) t) :
      Step host call w ⟨t, fc.handle :: w.held⟩
  | release {fc : XfsCookie} {node : XfsFsFile} {t : State} (hc : call = .release fc)
      (hn : w.fs.heap.get fc.index = some node) (href : node.refCount ≠ 0)
      (ht : After host (call.targets w.fs.heap) w.fs
        (· = xfsFreefs w.fs.heap.length (withoutCookie w.fs.heap fc.index) fc.index) t) :
      Step host call w ⟨t, w.held.erase fc.handle⟩
  | mount {t : State} (hh : t.heap = w.fs.heap) (hl : t.log = w.fs.log)
      (hm : Mounted w.fs.mounts t.mounts) : Step host call w ⟨t, w.held⟩

/-! ## Primitives -/

variable {host : Host} {T : List Target} {s : State}
variable {H : Nodes → Prop} {E : State → Prop}

/-- Nodes and drives are as in `s`. -/
abbrev Kept (host : Host) (T : List Target) (s : State) : State → Prop :=
  After host T s (· = s.heap)

theorem After.refl : Kept host T s s := ⟨rfl, rfl, fun _ ha => .inl ha⟩

theorem After.imp {H' : Nodes → Prop} {t : State} (h : After host T s H t)
    (hH : ∀ heap, H heap → H' heap) : After host T s H' t :=
  ⟨hH _ h.heap, h.mounts, h.log⟩

/-- `P` survives that `path` is handed to the host. -/
def Logs (P : State → Prop) (dev : U16) (path : Str) : Prop :=
  ∀ t sys, P t → P { t with log := t.log ++ [⟨dev, sys, path⟩] }

variable {path : Str}

theorem Builds.logs {target : Target} (ht : target ∈ T)
    (hb : Builds host s target path) : Logs (After host T s H) target.1.dev path := by
  intro t sys h
  refine ⟨h.heap, h.mounts, fun a ha => ?_⟩
  rcases List.mem_append.1 ha with ha | ha
  · exact h.log a ha
  · cases List.mem_singleton.1 ha
    exact .inr ⟨target, ht, rfl, hb⟩

variable {P : State → Prop}

theorem touch_spec {dev : U16} : ∀ {calls : List (Sys × Str)}, (∀ c ∈ calls, Logs P dev c.2) →
      Triple P (touch dev calls) (fun _ => P) E := by
  intro calls hcalls
  refine .modify fun t ht => ?_
  induction calls generalizing t with
  | nil => simpa using ht
  | cons c calls ih =>
    have := ih (fun d hd => hcalls d (mem_cons_of_mem _ hd)) _
      (hcalls c mem_cons_self t c.1 ht)
    simpa using this

theorem touch_one {dev : U16} {sys : Sys} (hP : Logs P dev path) :
    Triple P (touch dev [(sys, path)]) (fun _ => P) E :=
  touch_spec (by simpa using hP)

variable {e : Tos}

theorem check_spec {answer : Option Errno} : Triple P (check answer e) (fun _ => P) P := by
  cases answer with
  | none => exact .pure fun _ h => h
  | some _ => exact .throw fun _ h => h

variable {fc : XfsCookie} {sys : Sys}

theorem sysCall_spec (hP : Logs P fc.dev path) :
    Triple P (sysCall host fc sys path e) (fun _ => P) P :=
  .bind (touch_one hP) fun _ => check_spec

theorem lstat_spec (hP : Logs P fc.dev path) : Triple P (lstat host fc path e) (fun _ => P) P := by
  refine .bind (touch_one hP) fun _ => ?_
  cases host.lstat path with
  | ok _ => exact .pure fun _ h => h
  | error _ => exact .throw fun _ h => h

theorem pathname_spec {name : Option Str} (hT : (fc, name) ∈ T) :
    Triple (Kept host T s) (pathname host fc name)
      (fun path t => Builds host s (fc, name) path ∧ Kept host T s t) (Kept host T s) := by
  refine .get_bind fun t ht => ?_
  rw [ht.heap, ht.mounts]
  cases hc : cookie2Pathname host s.heap (s.mounts.lookup fc.dev) s.heap.length fc.index name with
  | none => exact Triple.throw fun _ h => h
  | some r =>
    obtain ⟨buf, calls⟩ := r
    have hbuilt : ∀ {path}, path ∈ buf :: calls.map (·.2) → Builds host s (fc, name) path := by
      intro path hmem
      rwa [Builds, built, hc]
    have hcalls : ∀ c ∈ calls, Logs (Kept host T s) fc.dev c.2 := fun c hmem =>
      (hbuilt (mem_cons_of_mem _ (mem_map_of_mem hmem))).logs hT
    exact .bind (touch_spec hcalls) fun _ => .pure fun _ h => ⟨hbuilt mem_cons_self, h⟩

variable {β : Type}

theorem pathname_bind {name : Option Str} (hT : (fc, name) ∈ T) {f : Str → Xfs β}
    {R : β → State → Prop}
    (hf : ∀ path, Builds host s (fc, name) path →
      Triple (Kept host T s) (f path) R (Kept host T s)) :
    Triple (Kept host T s) (pathname host fc name >>= f) R (Kept host T s) :=
  .bind (pathname_spec hT) fun path =>
    .of_pre (fun _ h => h.1) fun hb =>
      .weaken (hf path hb) (fun _ h => h.2) (fun _ _ h => h) fun _ h => h

/-! ## Nodes -/

variable {h : Nodes} {p : Ptr} {node : XfsFsFile}

theorem deref_bind (hp : h.get p = some node) {f : XfsFsFile → Xfs β}
    {R : β → State → Prop} (hf : Triple (After host T s (· = h)) (f node) R E) :
    Triple (After host T s (· = h)) (deref p >>= f) R E := by
  have hderef : Triple (After host T s (· = h)) (deref p)
      (fun n t => n = node ∧ After host T s (· = h) t) E := by
    refine .get_bind fun t ht => ?_
    rw [ht.heap, hp]
    exact .pure fun _ h => ⟨rfl, h⟩
  refine .bind hderef fun n => .of_pre (fun _ h => h.1) fun hn => ?_
  subst hn
  exact .weaken hf (fun _ h => h.2) (fun _ _ h => h) fun _ h => h

theorem update_spec (hp : h.get p = some node) {f : XfsFsFile → XfsFsFile} :
    Triple (After host T s (· = h)) (update p f) (fun _ => After host T s (· = h.alter p f)) E :=
  deref_bind hp <| .modify fun _ ht =>
    ⟨congrArg (fun heap : Nodes => heap.alter p f) ht.heap, ht.mounts, ht.log⟩

variable {name : Str}

theorem newFsFile_bind {parent : Option Ptr} {f : Ptr → Xfs β} {R : β → State → Prop}
    (hf : Triple (After host T s (· = (host.new h, ⟨parent, 1, 0, false, name⟩) :: h))
      (f (host.new h)) R E) :
    Triple (After host T s (· = h)) (newFsFile host parent name >>= f) R E := by
  intro t ht
  have hrun : newFsFile host parent name t =
      .ok (host.new h) { t with heap := (host.new h, ⟨parent, 1, 0, false, name⟩) :: h } := by
    rw [← ht.heap]
    rfl
  rw [bind_of_ok f hrun]
  exact hf _ ⟨rfl, ht.mounts, ht.log⟩

theorem new_ne (hp : h.get p = some node) : p ≠ host.new h := by
  rintro rfl
  rw [host.new_fresh] at hp
  cases hp

theorem newChild_bind (hp : h.get p = some node) {f : Ptr → Xfs β} {R : β → State → Prop}
    (hf : Triple (After host T s (· = withChild host h p name)) (f (host.new h)) R E) :
    Triple (After host T s (· = h)) (newChild host p name >>= f) R E := by
  have hp' : Heap.get ((host.new h, (⟨some p, 1, 0, false, name⟩ : XfsFsFile)) :: h) p =
      some node := by
    rw [Heap.get_cons_of_ne _ _ (new_ne hp), hp]
  have hheap : Heap.alter ((host.new h, (⟨some p, 1, 0, false, name⟩ : XfsFsFile)) :: h) p
      (fun n => { n with childCount := n.childCount + 1 }) = withChild host h p name := by
    rw [Heap.alter, map_cons, if_neg (new_ne hp).symm]
    rfl
  have hnew : Triple (After host T s (· = h)) (newChild host p name)
      (fun q t => q = host.new h ∧ After host T s (· = withChild host h p name) t) E :=
    newFsFile_bind <| Triple.bind (update_spec hp') fun _ =>
      Triple.pure fun _ ht => ⟨rfl, hheap ▸ ht⟩
  refine Triple.bind hnew fun q => Triple.of_pre (fun _ h => h.1) fun hq => ?_
  subst hq
  exact Triple.weaken hf (fun _ h => h.2) (fun _ _ h => h) fun _ h => h

/-! ## Calls that return a cookie -/

variable {C : List XfsCookie}

/-- The postcondition of a call that returns a cookie. -/
def Gains (host : Host) (s : State) (C : List XfsCookie) (T : List Target)
    (x : Xfs XfsCookie) : Prop :=
  Triple (After host T s (· = s.heap)) x (fun fc => After host T s (Gain host s C T fc))
    (After host T s (· = s.heap))

theorem xfsRoot_spec (dev : U16) : Gains host s C T (xfsRoot host dev) := by
  refine .get_bind fun t ht => ?_
  rw [ht.mounts]
  cases hm : s.mounts.lookup dev with
  | none => exact .throw fun _ h => h
  | some drv =>
    refine newFsFile_bind (.pure fun u hu => hu.imp ?_)
    rintro heap rfl
    exact .root hm rfl

variable {dir : XfsCookie}

theorem share_spec (hp : s.heap.get p = some node)
    (hg : Gain host s C T { dir with index := p } (withCookie s.heap p)) :
    Gains host s C T (share dir p) :=
  .bind (update_spec hp) fun _ => .pure fun _ hu => hu.imp fun _ heq => heq ▸ hg

theorem newChild_spec (hd : dir ∈ C) (hn : s.heap.get dir.index = some node)
    (hT : (dir, some name) ∈ T) (hdev : fc.dev = dir.dev) : Gains host s C T (do
      let index ← newChild host dir.index name
      pure { fc with index := index }) :=
  newChild_bind hn <| .pure fun _ hu => hu.imp fun _ heq => heq ▸ .child hd hT hdev rfl

theorem xfsLookup_spec (hd : dir ∈ C)
    (hr : Rooted XfsFsFile.parent s.heap) (hn : s.heap.get dir.index = some node)
    (hT : ¬ selfOrParent (fetchName name) → (dir, some (fetchName name)) ∈ T) :
    Gains host s C T (xfsLookup host dir name) := by
  unfold xfsLookup
  dsimp only
  split_ifs with hself hparent
  · exact share_spec hn (.same hd rfl)
  · refine deref_bind hn ?_
    cases hp : node.parent with
    | none => exact Triple.throw fun _ h => h
    | some q =>
      obtain ⟨parent, hq⟩ := hr.parent_live hn hp
      exact share_spec hq (.up hd hn hp rfl)
  · have hmem := hT (by simp [selfOrParent, not_or.1 hself, hparent])
    refine pathname_bind hmem fun path hb => ?_
    exact Triple.bind (lstat_spec (hb.logs hmem)) fun _ => newChild_spec hd hn hmem rfl

theorem xfsCreat_spec (hd : dir ∈ C) (hn : s.heap.get dir.index = some node)
    (hT : (dir, some (fetchName name)) ∈ T) : Gains host s C T (xfsCreat host dir name) :=
  pathname_bind hT fun _ hb =>
    .bind (sysCall_spec (hb.logs hT)) fun _ => newChild_spec hd hn hT rfl

theorem xfsDupcookie_spec {old : XfsCookie} (ho : old ∈ C) (hr : Rooted XfsFsFile.parent s.heap)
    (hn : s.heap.get old.index = some node) : Gains host s C T (xfsDupcookie host old) := by
  refine deref_bind hn ?_
  cases hp : node.parent with
  | some q =>
    obtain ⟨parent, hq⟩ := hr.parent_live hn hp
    exact newChild_bind hq <| Triple.pure fun _ hu => hu.imp fun _ heq =>
      heq ▸ .dup ho hn hp rfl rfl
  | none =>
    refine Triple.get_bind fun t ht => ?_
    rw [ht.mounts]
    cases hm : s.mounts.lookup old.dev with
    | none => exact Triple.throw fun _ h => h
    | some drv =>
      exact newFsFile_bind <| Triple.pure fun _ hu => hu.imp fun _ heq => heq ▸ .root hm rfl

variable {dirh : XfsDir}

theorem writeEntry_spec {len : U16} {e : Dirent} (hT : (dirh.fc, some e.name.chars) ∈ T) :
    Triple (Kept host T s) (writeEntry host dirh len e) (fun _ => Kept host T s)
      (Kept host T s) := by
  have hcopy : ∀ (src : Str) (count : ℤ) (ino : Option U32), Triple (Kept host T s)
      (host2AtariSafeStrncpy src count >>= fun name => pure (some (ino, name)))
      (fun _ => Kept host T s) (Kept host T s) := by
    intro src count ino
    unfold host2AtariSafeStrncpy
    split_ifs
    · exact .throw fun _ h => h
    · exact .pure fun _ h => h
  unfold writeEntry
  dsimp only
  split_ifs
  · exact .pure fun _ h => h
  · exact pathname_bind hT fun _ _ => hcopy _ _ _
  · exact .pure fun _ h => h
  · exact hcopy _ _ _

/-- What reading a directory leaves. -/
def ReadLeaves (host : Host) (s : State) (C : List XfsCookie) (T : List Target) :
    Except Tos (XfsCookie × Option U32 × Str) → State → Prop
  | .ok (fc, _) => After host T s (Gain host s C T fc)
  | .error _ => After host T s (· = s.heap)

theorem readdirCookie_spec {len : U16} (hd : dirh.fc ∈ C)
    (hn : s.heap.get dirh.fc.index = some node)
    (hT : ∀ e ∈ (unread node.parent.isNone dirh.hostDir).head?, (dirh.fc, some e.name.chars) ∈ T) :
    Gains host s C T (readdirCookie host dirh len) := by
  have hread : Triple (Kept host T s) (xfsReaddir host dirh len)
      (fun r => ReadLeaves host s C T r.result) (Kept host T s) := by
    refine .get_bind fun t ht => ?_
    cases t.mounts.lookup dirh.fc.dev with
    | none => exact .throw fun _ h => h
    | some drv =>
      refine deref_bind hn ?_
      cases hu : unread node.parent.isNone dirh.hostDir with
      | nil => exact .pure fun _ h => h
      | cons e rest =>
        have hmem : (dirh.fc, some e.name.chars) ∈ T := hT e (by rw [hu]; rfl)
        refine .bind (writeEntry_spec hmem) fun written => ?_
        cases written with
        | none => exact .pure fun _ h => h
        | some written =>
          exact newChild_bind hn <| .pure fun _ hu => hu.imp fun _ heq =>
            heq ▸ .child hd hmem rfl rfl
  refine .bind hread fun r => ?_
  cases r.result with
  | ok r => exact .pure fun _ h => h
  | error e => exact .throw fun _ h => h

/-! ## Calls that only hand paths to the host -/

/-- `x` leaves nodes and drives alone. -/
def Looks {α : Type} (host : Host) (s : State) (T : List Target) (x : Xfs α) : Prop :=
  Triple (After host T s (· = s.heap)) x (fun _ => After host T s (· = s.heap))
    (After host T s (· = s.heap))

variable {α : Type}

theorem looks_pure (a : α) : Looks host s T (pure a : Xfs α) :=
  .pure fun _ h => h

theorem looks_fail (e : Tos) : Looks host s T (fail e : Xfs α) :=
  .throw fun _ h => h

theorem onPath_spec {name : Option Str} (hT : (fc, name) ∈ T) :
    Looks host s T (onPath host fc name sys e) :=
  pathname_bind hT fun _ hb => sysCall_spec (hb.logs hT)

theorem xfsReadlink_spec (hT : (dir, none) ∈ T) : Looks host s T (xfsReadlink host dir) :=
  pathname_bind hT fun _ hb => .bind (touch_one (hb.logs hT)) fun _ => check_spec

theorem onPaths_spec {fc' : XfsCookie} {name' : Str}
    (hT : (fc, some (fetchName name)) ∈ T) (hT' : (fc', some (fetchName name')) ∈ T) :
    Looks host s T (onPaths host fc name fc' name' sys) :=
  pathname_bind hT fun _ hb => pathname_bind hT' fun _ hb' =>
    .bind (touch_one (hb.logs hT)) fun _ => .bind (touch_one (hb'.logs hT')) fun _ => check_spec

theorem xfsSymlink_spec {fromname toname : Str} (hT : (dir, some (fetchName fromname)) ∈ T) :
    Looks host s T (xfsSymlink host dir fromname toname) := by
  refine pathname_bind hT fun path hb => ?_
  split_ifs
  · exact looks_fail _
  · exact sysCall_spec (hb.logs hT)

theorem xfsGetxattr_spec {name : Option Str} (hT : (fc, name.map fetchName) ∈ T) :
    Looks host s T (xfsGetxattr host fc name) :=
  pathname_bind hT fun _ hb => .bind (lstat_spec (hb.logs hT)) fun _ => looks_pure _

theorem xfsChattr_spec {attr : U16} (hT : (fc, none) ∈ T) :
    Looks host s T (xfsChattr host fc attr) := by
  refine pathname_bind hT fun path hb => .bind (lstat_spec (hb.logs hT)) fun mode => ?_
  dsimp only
  split_ifs
  exacts [sysCall_spec (hb.logs hT), looks_pure _, sysCall_spec (hb.logs hT), looks_pure _]

theorem xfsDevDatime_spec {wflag : U16} (hT : (fc, none) ∈ T) :
    Looks host s T (xfsDevDatime host fc wflag) := by
  refine pathname_bind hT fun path hb => .bind (touch_one (hb.logs hT)) fun _ =>
    .bind check_spec fun _ => ?_
  split_ifs
  exacts [sysCall_spec (hb.logs hT), looks_pure _]

theorem xfsPathconf_spec {which : U16} (hT : (fc, none) ∈ T) :
    Looks host s T (xfsPathconf host fc which) := by
  refine pathname_bind hT fun path hb => .bind (sysCall_spec (hb.logs hT)) fun _ => ?_
  split_ifs
  exacts [sysCall_spec (hb.logs hT), looks_pure _]

theorem path_of_mem_hostOpendir {c : Sys × Str} (hc : c ∈ (hostOpendir host path).2) :
    c.2 = path := by
  unfold hostOpendir at hc
  repeat' split at hc
  all_goals
    simp only [mem_cons, not_mem_nil, or_false] at hc
    rcases hc with rfl | rfl | rfl <;> rfl

theorem xfsOpendir_spec {flags : U16} (hT : (dirh.fc, none) ∈ T) :
    Looks host s T (xfsOpendir host dirh flags) := by
  refine pathname_bind hT fun path hb => ?_
  have htouch : ∀ c ∈ (hostOpendir host path).2,
      Logs (Kept host T s) dirh.fc.dev c.2 := by
    intro c hc
    rw [path_of_mem_hostOpendir hc]
    exact hb.logs hT
  refine .bind (touch_spec htouch) fun _ => ?_
  split
  · exact looks_pure _
  · exact looks_fail _

theorem xfsGetname_spec {relto : XfsCookie} {size : U16} (hT : (relto, none) ∈ T)
    (hT' : (dir, none) ∈ T) : Looks host s T (xfsGetname host relto dir size) := by
  refine pathname_bind hT fun base _ => pathname_bind hT' fun dirPath _ => ?_
  dsimp only
  split_ifs
  all_goals first | exact looks_fail _ | exact looks_pure _

theorem xfsFscntl_spec {cmd : Fscntl}
    (hT : ∀ target ∈ Call.targets s.heap (.fscntl dir cmd), target ∈ T) :
    Looks host s T (xfsFscntl host dir cmd) := by
  cases cmd with
  | mxKerXfsname | fsInfo => exact looks_pure _
  | fsUsage | futime _ | futimeUtc _ | ftruncate _ => exact onPath_spec (hT _ mem_cons_self)
  | fstat _ | fstat64 _ => exact xfsGetxattr_spec (hT _ mem_cons_self)
  | other => exact looks_fail _

theorem xfsDevOpen_spec {flags : U16} (hn : s.heap.get fc.index = some node) (hT : (fc, none) ∈ T) :
    Triple (Kept host T s) (xfsDevOpen host fc flags)
      (fun _ => After host T s (Quiet s.heap)) (After host T s (Quiet s.heap)) := by
  have hkeep : ∀ t, Kept host T s t → After host T s (Quiet s.heap) t := fun _ ht =>
    ht.imp fun _ heq => .inl heq
  have hmark : Triple (Kept host T s) (markCreated fc.index flags)
      (fun _ => After host T s (Quiet s.heap)) (Kept host T s) := by
    refine deref_bind hn ?_
    split_ifs
    · exact Triple.weaken (update_spec hn) (fun _ h => h)
        (fun _ _ h => h.imp fun _ heq => .inr ⟨_, _, hn, heq⟩) fun _ h => h
    · exact Triple.pure hkeep
  refine Triple.bind (Triple.weaken (pathname_spec hT) (fun _ h => h) (fun _ _ h => h) hkeep)
    fun path => Triple.of_pre (fun _ h => h.1) fun hb => ?_
  exact Triple.bind (Triple.weaken hmark (fun _ h => h.2) (fun _ _ h => h) hkeep) fun _ =>
    sysCall_spec (hb.logs hT)

variable {mounts : Mounts}

/-! ## Drives -/

theorem lookup_append (new : U16 × ExtDrive) (dev : U16) : (mounts ++ [new]).lookup dev =
      (mounts.lookup dev).or (if dev = new.1 then some new.2 else none) := by
  rw [List.lookup_append]
  exact congrArg _ (Heap.get_cons new [] dev)

theorem mounted_insertMount {dev : U16} {drv : ExtDrive} (hroot : RootOk drv.hostRoot) :
    Mounted mounts (insertMount mounts dev drv) := by
  unfold insertMount
  split_ifs
  · exact ⟨fun _ _ h => h, fun _ _ h => .inl h⟩
  · refine ⟨fun d e h => ?_, fun d e h => ?_⟩
    · rw [lookup_append, h]
      rfl
    · rw [lookup_append] at h
      cases hl : mounts.lookup d with
      | some f => rw [hl] at h; exact .inl h
      | none =>
        rw [hl, Option.none_or] at h
        split_ifs at h
        cases h
        exact .inr hroot

theorem Mounted.trans {m₁ m₂ m₃ : Mounts} (h1 : Mounted m₁ m₂)
    (h2 : Mounted m₂ m₃) : Mounted m₁ m₃ :=
  ⟨fun d e h => h2.old d e (h1.old d e h), fun d e h =>
    (h2.new d e h).elim (h1.new d e) .inr⟩

theorem mounted_insertDrive {drv : ExtDrive} {dnum : Option ℕ} (hroot : RootOk drv.hostRoot) :
    Mounted mounts (insertDrive mounts drv dnum) := by
  have hone : Mounted mounts (insertMount mounts drv.driveNumber drv) := mounted_insertMount hroot
  unfold insertDrive
  cases dnum with
  | none => exact hone
  | some d =>
    dsimp only
    split_ifs
    · exact hone.trans (mounted_insertMount hroot)
    · exact hone

theorem backslash_notMem_myCanonicalizeFileName (filename : Str) (appendSlash : Bool) :
    '\\' ∉ myCanonicalizeFileName host filename appendSlash := by
  have hs : ∀ s : Str, '\\' ∉ strd2upath s := by
    intro s hmem
    obtain ⟨c, -, hc⟩ := List.mem_map.1 hmem
    split_ifs at hc with h
    · exact absurd hc (by decide)
    · exact h (.inl hc)
  unfold myCanonicalizeFileName
  dsimp only
  split_ifs
  · rw [mem_append, not_or]
    exact ⟨hs _, by decide⟩
  · exact hs _

theorem xfsNativeInit_spec (devnum : U16) (mountpoint hostroot : Str) (half : Bool)
    (filesys fsFlags filesysDevdrv : U32) :
    Triple (· = s)
      (xfsNativeInit host devnum mountpoint hostroot half filesys fsFlags filesysDevdrv)
      (fun _ t => t.heap = s.heap ∧ t.log = s.log ∧ Mounted s.mounts t.mounts) (· = s) := by
  have hroot : '\\' ∉ (newDrive host devnum mountpoint hostroot half filesys fsFlags
      filesysDevdrv).1.hostRoot := by
    unfold newDrive
    dsimp only
    split <;> exact backslash_notMem_myCanonicalizeFileName _ _
  unfold xfsNativeInit
  dsimp only
  split_ifs with hempty
  · exact Triple.throw fun _ h => h
  · refine Triple.modify ?_
    rintro t rfl
    exact ⟨rfl, rfl, mounted_insertDrive ⟨hempty, hroot⟩⟩

/-! ## Steps -/

variable {call : Call} {w : World}

/-- The outcomes of a call, with the world that each leads to. -/
def Leads (host : Host) (call : Call) (w : World) (x : Xfs (Option XfsCookie)) : Prop :=
  Triple (· = w.fs) x
    (fun r t => Step host call w
      (match r with
        | some fc => ⟨t, fc.handle :: w.held⟩
        | none => ⟨t, (call.released.map w.held.erase).getD w.held⟩))
    (fun t => Step host call w ⟨t, w.held⟩)

theorem Gains.leads {x : Xfs XfsCookie}
    (hx : Gains host w.fs call.cookies (call.targets w.fs.heap) x) :
    Leads host call w (some <$> x) :=
  .map (.weaken hx (fun _ ht => ht ▸ .refl) (fun _ _ ht => .gain ht) fun _ ht =>
    .quiet (ht.imp fun _ heq => .inl heq))

theorem quiet_leads {x : Xfs α} (hrel : call.released = none)
    (hx : Triple (Kept host (call.targets w.fs.heap) w.fs) x
      (fun _ => After host (call.targets w.fs.heap) w.fs (Quiet w.fs.heap))
      (After host (call.targets w.fs.heap) w.fs (Quiet w.fs.heap))) :
    Leads host call w (do let _ ← x; pure none) := by
  refine .bind (Q := fun _ t => Step host call w ⟨t, w.held⟩) ?_ fun _ => ?_
  · exact .weaken hx (fun _ ht => ht ▸ .refl) (fun _ _ ht => .quiet ht) fun _ ht =>
      .quiet ht
  · refine .pure fun t ht => ?_
    rw [hrel]
    exact ht

theorem Looks.leads {x : Xfs α} (hrel : call.released = none)
    (hx : Looks host w.fs (call.targets w.fs.heap) x) :
    Leads host call w (do let _ ← x; pure none) :=
  quiet_leads hrel <| .weaken hx (fun _ ht => ht)
    (fun _ _ ht => ht.imp fun _ heq => .inl heq) fun _ ht => ht.imp fun _ heq => .inl heq

theorem xfsRelease_leads (hn : w.fs.heap.get fc.index = some node) :
    Leads host (.release fc) w (do xfsRelease fc; pure none) := by
  have hrel : Triple (Kept host [] w.fs) (xfsRelease fc)
      (fun _ t => Step host (.release fc) w ⟨t, w.held.erase fc.handle⟩)
      (fun t => Step host (.release fc) w ⟨t, w.held⟩) := by
    refine deref_bind hn ?_
    split_ifs with href
    · exact .throw fun t ht => .quiet (ht.imp fun _ heq => .inl heq)
    · refine Triple.bind (update_spec hn) fun _ => .modify fun t ht => ?_
      refine .release rfl hn href ⟨?_, ht.mounts, ht.log⟩
      rw [ht.heap, Heap.length_alter]
      rfl
  exact .bind (.weaken hrel (fun _ ht => ht ▸ .refl) (fun _ _ h => h) fun _ h => h)
    fun _ => .pure fun _ h => h

theorem dispatch_leads (hr : Rooted XfsFsFile.parent w.fs.heap)
    (hlive : ∀ fc ∈ call.cookies, ∃ node, w.fs.heap.get fc.index = some node) :
    Leads host call w (dispatch host call) := by
  cases call with
  | init devnum mountpoint hostroot half filesys fsFlags filesysDevdrv =>
    refine .bind (.weaken (xfsNativeInit_spec devnum mountpoint hostroot half filesys fsFlags
      filesysDevdrv) (fun _ h => h) (fun _ _ h => h) ?_) ?_
    · rintro t rfl
      exact .quiet (After.refl.imp fun _ heq => .inl heq)
    · exact fun _ => .pure fun t ht => .mount ht.1 ht.2.1 ht.2.2
  | root dev => exact (xfsRoot_spec dev).leads
  | lookup dir name =>
    obtain ⟨node, hn⟩ := hlive dir mem_cons_self
    refine (xfsLookup_spec mem_cons_self hr hn fun hname => ?_).leads
    rw [Call.targets, if_neg hname]
    exact mem_cons_self
  | creat dir name =>
    obtain ⟨node, hn⟩ := hlive dir mem_cons_self
    exact (xfsCreat_spec mem_cons_self hn mem_cons_self).leads
  | readdir dirh len =>
    obtain ⟨node, hn⟩ := hlive dirh.fc mem_cons_self
    refine (readdirCookie_spec mem_cons_self hn fun e he => ?_).leads
    simp only [Call.targets, hn]
    rw [he]
    exact mem_cons_self
  | dupcookie oldCook =>
    obtain ⟨node, hn⟩ := hlive oldCook mem_cons_self
    exact (xfsDupcookie_spec mem_cons_self hr hn).leads
  | release fc =>
    obtain ⟨node, hn⟩ := hlive fc mem_cons_self
    exact xfsRelease_leads hn
  | dfree _ | mkdir _ _ | rmdir _ _ | remove _ _ | chmod _ =>
    exact Looks.leads rfl (onPath_spec mem_cons_self)
  | readlink dir => exact Looks.leads rfl (xfsReadlink_spec mem_cons_self)
  | rename _ _ _ _ | hardlink _ _ _ _ =>
    exact Looks.leads rfl (onPaths_spec mem_cons_self (mem_cons_of_mem _ mem_cons_self))
  | symlink dir fromname toname => exact Looks.leads rfl (xfsSymlink_spec mem_cons_self)
  | getxattr _ | stat64 _ => exact Looks.leads rfl (xfsGetxattr_spec mem_cons_self)
  | chattr fc attr => exact Looks.leads rfl (xfsChattr_spec mem_cons_self)
  | devDatime fc wflag => exact Looks.leads rfl (xfsDevDatime_spec mem_cons_self)
  | pathconf fc which => exact Looks.leads rfl (xfsPathconf_spec mem_cons_self)
  | devOpen fc flags =>
    obtain ⟨node, hn⟩ := hlive fc mem_cons_self
    exact quiet_leads rfl (xfsDevOpen_spec hn mem_cons_self)
  | opendir dirh flags => exact Looks.leads rfl (xfsOpendir_spec mem_cons_self)
  | getname relto dir size =>
    exact Looks.leads rfl (xfsGetname_spec mem_cons_self (mem_cons_of_mem _ mem_cons_self))
  | fscntl dir cmd => exact Looks.leads rfl (xfsFscntl_spec fun _ ht => ht)

theorem step_cases (host : Host) (hr : Rooted XfsFsFile.parent w.fs.heap)
    (hlive : ∀ fc ∈ call.cookies, ∃ node, w.fs.heap.get fc.index = some node) :
    Step host call w (step w (host, call)).1 := by
  have hleads : Leads host call w (dispatch host call) := dispatch_leads hr hlive
  have h := hleads w.fs rfl
  unfold step
  cases hd : dispatch host call w.fs with
  | ok r t =>
    rw [hd] at h
    cases r with
    | none => exact h
    | some fc => exact h
  | error e t =>
    rw [hd] at h
    exact h

end Aranym.HostFs
