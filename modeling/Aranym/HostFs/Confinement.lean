/-
  Host paths and the root of the drive.

  As long as the names that the guest gives do not climb above the root of the
  drive, no path that is handed to the host does.  Nothing in the code sees to
  it, though: only `xfs_lookup` looks for `..`, and only for a name that is
  nothing else.
-/
import Aranym.HostFs.Chains

namespace Aranym.HostFs

open List

open Lib

/-! ## Levels of the host's names -/

section
variable {host : Host} {drv : Option ExtDrive} {root : Str}

/-- From a level that is at least as deep a name that stands for another leads at least as deep. -/
theorem walk_dominates {ps qs : List (Segment Str)} {a a' m : ℕ} (ha : a ≤ a')
    (hps : walk a ps = some m)
    (hq : ∀ k j, walk k ps = some j → ∃ j', j ≤ j' ∧ walk k qs = some j') :
    ∃ m', m ≤ m' ∧ walk a' qs = some m' := by
  obtain ⟨d, rfl⟩ := Nat.exists_eq_add_of_le ha
  obtain ⟨m', hm', hw⟩ := hq _ _ (walk_mono d hps)
  exact ⟨m', Nat.le_trans (Nat.le_add_right m d) hm', hw⟩

variable {ns : List Str}

theorem below_finals (hp : Plain host) (drv : Option ExtDrive) (root : Str) :
    ∀ {m : ℕ}, walk 0 (below ns) = some m →
      ∃ m', m ≤ m' ∧ walk 0 (below (finals host drv root ns)) = some m' := by
  induction ns with
  | nil => exact fun h => ⟨_, Nat.le_refl _, h⟩
  | cons n ns ih =>
    intro m h
    by_cases hn : n = []
    · subst hn
      exact ih h
    · rw [below_cons hn, walk_append] at h
      obtain ⟨a, ha, hm⟩ := Option.bind_eq_some_iff.1 h
      obtain ⟨a', hle, ha'⟩ := ih ha
      rw [finals_cons _ _ _ hn, below_cons (getHostFileName_ne_nil hn), walk_append, ha']
      exact walk_dominates hle hm (getHostFileName_stands hp drv _ n).inner

theorem walk_last_finals (hp : Plain host) (drv : Option ExtDrive) (root : Str) {n f : Str}
    (hf : ∀ k j, walk k (parts n) = some j → ∃ j', j ≤ j' ∧ walk k (parts f) = some j')
    (h : (walk 0 (below ns ++ parts n)).isSome) :
    (walk 0 (below (finals host drv root ns) ++ parts f)).isSome := by
  obtain ⟨m, hm⟩ := Option.isSome_iff_exists.1 h
  rw [walk_append] at hm
  obtain ⟨a, ha, hm⟩ := Option.bind_eq_some_iff.1 hm
  obtain ⟨a', hle, ha'⟩ := below_finals hp drv root ha
  obtain ⟨m', -, hm'⟩ := walk_dominates hle hm hf
  rw [walk_append, ha']
  exact Option.isSome_iff_exists.2 ⟨m', hm'⟩

/-- What the host makes of names that stay within the root stays within it. -/
theorem within_finals (hp : Plain host) (drv : Option ExtDrive) (root : Str)
    (h : Within ns) : Within (finals host drv root ns) := by
  induction ns with
  | nil => exact trivial
  | cons n ns ih =>
    refine ⟨ih h.1, fun hf => ?_⟩
    have hn : n ≠ [] := by
      rintro rfl
      exact hf (if_pos rfl)
    rw [if_neg hn]
    exact walk_last_finals hp drv root (getHostFileName_stands hp drv _ n).last (h.2 hn)

theorem path_of_mem_getHostFileName {dir n : Str} {c : Sys × Str}
    (hc : c ∈ (getHostFileName host drv dir n).2) : c.2 = dir ++ n ∨ c.2 = dir := by
  unfold getHostFileName at hc
  by_cases hpat : n.any (fun c => c = '*' || c = '?') = true
  · rw [if_pos hpat] at hc
    cases hc
  · rw [if_neg hpat] at hc
    cases hs : host.stat (dir ++ n) with
    | none =>
      rw [hs] at hc
      cases List.mem_singleton.1 hc
      exact .inl rfl
    | some e =>
      have hmem : c ∈ (.stat, dir ++ n) :: (hostOpendir host dir).2 := by
        simp only [hs] at hc
        split at hc
        · exact hc
        · split at hc
          · exact hc
          · split_ifs at hc <;> exact hc
      rcases List.mem_cons.1 hmem with rfl | hmem
      · exact .inl rfl
      · exact .inr (path_of_mem_hostOpendir hmem)

theorem inside_asked (hp : Plain host) (drv : Option ExtDrive) (hr : RootOk root) (h : Within ns)
    {c : Sys × Str} (hc : c ∈ asked host drv root ns) : (pathOf root).Inside (pathOf c.2) := by
  induction ns with
  | nil => cases hc
  | cons n ns ih =>
    by_cases hn : n = []
    · rw [asked, if_pos hn, append_nil] at hc
      exact ih h.1 hc
    · rw [asked_cons _ _ _ hn] at hc
      rcases List.mem_append.1 hc with hc | hc
      · exact ih h.1 hc
      · have hwalk := walk_last_finals hp drv root (fun _ j hj => ⟨j, Nat.le_refl j, hj⟩) (h.2 hn)
        rcases path_of_mem_getHostFileName hc with heq | heq
        · have hin : Within (n :: finals host drv root ns) :=
            ⟨within_finals hp drv root h.1, fun _ => hwalk⟩
          rw [heq, ← render_cons hn]
          exact inside_render hr hin
        · rw [heq]
          exact inside_joined hr (walk_of_append hwalk)

end

/-! ## Runs -/

/-- The path lies inside the root of the drive, as far as its text tells. -/
def Confined (s : State) (a : Access) : Prop :=
  ∃ drv ∈ s.mounts.lookup a.dev, (pathOf drv.hostRoot).Inside (pathOf a.path)
deriving Decidable

/-- The names that the call is given, each behind those of its cookie, do not climb above the
    root. -/
def StaysBelow (w : World) (i : Host × Call) : Prop :=
  ∀ t ∈ i.2.targets w.fs.heap, Within (t.2.getD [] :: names w.fs.heap w.fs.heap.length t.1.index)
deriving Decidable

/-- The node at `k` stays within the root of the drive `dev`. -/
def Belongs (s : State) (dev : U16) (k : Ptr) : Prop :=
  ∃ drv ns, s.mounts.lookup dev = some drv ∧ Chain s.heap k drv.hostRoot ns ∧ Within ns

/-- Roots and names are clean. -/
structure Safe (w : World) : Prop where
  inv : Inv w
  roots : ∀ dev drv, w.fs.mounts.lookup dev = some drv → RootOk drv.hostRoot
  held : ∀ c ∈ w.held, Belongs w.fs c.dev c.index
  log : ∀ a ∈ w.fs.log, Confined w.fs a

section
variable {host : Host} {call : Call} {s t : State} {w : World}

variable {heap : Nodes}

theorem cookie_of_mem_targets {target : Target}
    (ht : target ∈ call.targets heap) : target.1 ∈ call.cookies := by
  cases call with
  | init | root | dupcookie | release => cases ht
  | lookup dir name =>
    rw [Call.targets] at ht
    split_ifs at ht
    · cases ht
    · cases List.mem_singleton.1 ht
      exact mem_singleton_self _
  | readdir dirh len =>
    rw [Call.targets] at ht
    cases hn : heap.get dirh.fc.index with
    | none =>
      rw [hn] at ht
      cases ht
    | some node =>
      rw [hn] at ht
      obtain ⟨e, -, rfl⟩ := List.mem_map.1 ht
      exact mem_singleton_self _
  | rename | hardlink | getname =>
    rcases List.mem_cons.1 ht with rfl | ht
    · exact mem_cons_self
    · cases List.mem_singleton.1 ht
      exact mem_cons_of_mem _ (mem_singleton_self _)
  | fscntl dir cmd =>
    cases cmd with
    | mxKerXfsname | fsInfo | other => cases ht
    | _ =>
      cases List.mem_singleton.1 ht
      exact mem_singleton_self _
  | _ =>
    cases List.mem_singleton.1 ht
    exact mem_singleton_self _

theorem Confined.mono {a : Access} (h : Confined s a)
    (hm : ∀ dev drv, s.mounts.lookup dev = some drv → t.mounts.lookup dev = some drv) :
    Confined t a := by
  obtain ⟨drv, hdrv, hin⟩ := h
  exact ⟨drv, hm _ _ hdrv, hin⟩

theorem Belongs.mono {dev : U16} {k : Ptr} (h : Belongs s dev k)
    (hm : ∀ dev drv, s.mounts.lookup dev = some drv → t.mounts.lookup dev = some drv)
    (hk : Keeps s.heap t.heap) : Belongs t dev k := by
  obtain ⟨drv, ns, hdrv, hc, hin⟩ := h
  exact ⟨drv, ns, hm _ _ hdrv, hc.mono hk, hin⟩

variable {fc : XfsCookie}

theorem Safe.belongs (hw : Safe w) (hheld : Held w (host, call))
    (hc : fc ∈ call.cookies) : Belongs w.fs fc.dev fc.index :=
  hw.held _ (hheld fc hc)

/-- Every path that is built for a cookie and a name lies inside the root of its drive. -/
theorem Safe.builds (hw : Safe w) (hp : Plain host) (hheld : Held w (host, call))
    (hbelow : StaysBelow w (host, call)) {target : Target}
    (ht : target ∈ call.targets w.fs.heap) {a : Access} (hdev : a.dev = target.1.dev)
    (hb : Builds host w.fs target a.path) : Confined w.fs a := by
  obtain ⟨drv, ns, hdrv, hchain, -⟩ := hw.belongs hheld (cookie_of_mem_targets ht)
  have hlen := hchain.length_lt hw.inv.counted.rooted
  have hr := hw.roots _ _ hdrv
  have hin := hbelow target ht
  rw [names_eq hchain hlen] at hin
  rw [Builds, built, cookie2Pathname_eq hchain hlen] at hb
  refine ⟨drv, by rw [hdev]; exact hdrv, ?_⟩
  rcases List.mem_cons.1 hb with hpath | hmem
  · rw [hpath]
    exact inside_render hr (within_finals hp _ _ hin)
  · obtain ⟨c, hc, hpath⟩ := List.mem_map.1 hmem
    rw [← hpath]
    exact inside_asked hp _ hr hin hc

theorem Safe.logged (hw : Safe w) (hp : Plain host) (hheld : Held w (host, call))
    (hbelow : StaysBelow w (host, call)) (hlog : Logged host (call.targets w.fs.heap) w.fs t)
    (hm : t.mounts = w.fs.mounts) : ∀ a ∈ t.log, Confined t a := by
  intro a ha
  have hconf : Confined w.fs a := by
    rcases hlog a ha with hold | ⟨target, ht, hdev, hb⟩
    · exact hw.log a hold
    · exact hw.builds hp hheld hbelow ht hdev hb
  exact hconf.mono fun _ _ h => hm ▸ h

theorem keeps_quiet {heap' : Nodes} (hq : Quiet heap heap') : Keeps heap heap' := by
  rcases hq with rfl | ⟨p, node, -, rfl⟩
  · exact .refl _
  · exact keeps_alter fun _ => ⟨by rfl, by rfl⟩

theorem Gain.keeps {C : List XfsCookie} {T : List Target}
    (hg : Gain host s C T fc heap) : Keeps s.heap heap := by
  cases hg with
  | root => exact keeps_enter (host.new_fresh _) (.refl _)
  | child => exact keeps_withChild _ _ _
  | dup => exact keeps_withChild _ _ _
  | same => exact keeps_withCookie _ _
  | up => exact keeps_withCookie _ _

theorem Safe.gained (hw : Safe w) (hheld : Held w (host, call)) (hbelow : StaysBelow w (host, call))
    (hg : Gain host w.fs call.cookies (call.targets w.fs.heap) fc t.heap)
    (hm : t.mounts = w.fs.mounts) : Belongs t fc.dev fc.index := by
  unfold Belongs
  rw [hm]
  generalize t.heap = heap at hg
  cases hg with
  | @root drv hdrv hi =>
    rw [hi]
    exact ⟨drv, [], hdrv, .top (Heap.get_cons_self _ _ _) rfl, trivial⟩
  | @child dir name hd ht hdev hi =>
    obtain ⟨drv, ns, hdrv, hc, -⟩ := hw.belongs hheld hd
    have hin := hbelow _ ht
    rw [names_eq hc (hc.length_lt hw.inv.counted.rooted)] at hin
    rw [hdev, hi]
    exact ⟨drv, name :: ns, hdrv, chain_withChild hc, hin⟩
  | @dup old node p ho hn hp hdev hi =>
    obtain ⟨drv, ns, hdrv, hc, hin⟩ := hw.belongs hheld ho
    obtain ⟨ns, rfl, hparent⟩ := hc.up hn hp
    rw [hdev, hi]
    exact ⟨drv, node.name :: ns, hdrv, chain_withChild hparent, hin⟩
  | @same dir hd hf =>
    obtain ⟨drv, ns, hdrv, hc, hin⟩ := hw.belongs hheld hd
    have hdev : fc.dev = dir.dev := congrArg Handle.dev hf
    have hi : fc.index = dir.index := congrArg Handle.index hf
    rw [hdev, hi]
    exact ⟨drv, ns, hdrv, hc.mono (keeps_withCookie _ _), hin⟩
  | @up dir node hd hn hp hdev =>
    obtain ⟨drv, ns, hdrv, hc, hin⟩ := hw.belongs hheld hd
    obtain ⟨ns, rfl, hparent⟩ := hc.up hn hp
    rw [hdev]
    exact ⟨drv, ns, hdrv, hparent.mono (keeps_withCookie _ _), hin.1⟩

theorem keeps_withoutCookie (heap : Nodes) (p : Ptr) : Keeps (withoutCookie heap p) heap := by
  intro k n hk
  rw [withoutCookie, Heap.get_alter] at hk
  split_ifs at hk
  · obtain ⟨m, hm, rfl⟩ := Option.map_eq_some_iff.1 hk
    exact ⟨m, hm, rfl, rfl⟩
  · exact ⟨n, hk, rfl, rfl⟩

theorem Safe.released (hw : Safe w) {c d : Handle} {node : XfsFsFile} (hc : c ∈ w.held)
    (hk : w.fs.heap.get c.index = some node) (hm : t.mounts = w.fs.mounts)
    (ht : t.heap = xfsFreefs w.fs.heap.length (withoutCookie w.fs.heap c.index) c.index)
    (hd : d ∈ w.held.erase c) : Belongs t d.dev d.index := by
  have hfreed := hw.inv.freed hc hk
  rw [← ht] at hfreed
  obtain ⟨drv, ns, hdrv, hchain, hin⟩ := hw.held d (mem_of_mem_erase hd)
  obtain ⟨n, hn⟩ := (hw.inv.release hc hk ht).live d hd
  have hkeeps := hfreed.kept.trans (keeps_withoutCookie _ _)
  exact ⟨drv, ns, hm ▸ hdrv, hchain.of_kept hkeeps hfreed.counted.rooted hn, hin⟩

/-- One call keeps every path it uses below the root of its drive. -/
theorem Safe.step (hw : Safe w) {i : Host × Call} (hheld : Held w i) (hfits : Fits w)
    (hbelow : StaysBelow w i) (hp : Plain i.1) : Safe (step w i).1 := by
  obtain ⟨host, call⟩ := i
  have hinv := hw.inv.step hheld hfits
  have hstep := hw.inv.step_cases hheld
  generalize (HostFs.step w (host, call)).1 = w' at hstep hinv ⊢
  cases hstep with
  | @quiet t ht =>
    have hm : ∀ dev drv, w.fs.mounts.lookup dev = some drv → t.mounts.lookup dev = some drv :=
      fun _ _ h => ht.mounts ▸ h
    exact ⟨hinv, fun _ _ h => hw.roots _ _ (ht.mounts ▸ h),
      fun c hc => (hw.held c hc).mono hm (keeps_quiet ht.heap),
      hw.logged hp hheld hbelow ht.log ht.mounts⟩
  | @gain fc t ht =>
    have hm : ∀ dev drv, w.fs.mounts.lookup dev = some drv → t.mounts.lookup dev = some drv :=
      fun _ _ h => ht.mounts ▸ h
    refine ⟨hinv, fun _ _ h => hw.roots _ _ (ht.mounts ▸ h), fun c hc => ?_,
      hw.logged hp hheld hbelow ht.log ht.mounts⟩
    rcases List.mem_cons.1 hc with rfl | hc
    · exact hw.gained hheld hbelow ht.heap ht.mounts
    · exact (hw.held c hc).mono hm ht.heap.keeps
  | @release fc node t hc hn href ht =>
    refine ⟨hinv, fun _ _ h => hw.roots _ _ (ht.mounts ▸ h), fun d hd => ?_,
      hw.logged hp hheld hbelow ht.log ht.mounts⟩
    subst hc
    exact hw.released (hheld fc (mem_singleton_self _)) hn ht.mounts ht.heap hd
  | @mount t hh hl hm =>
    refine ⟨hinv, fun dev drv h => ?_, fun c hc => ?_, fun a ha => ?_⟩
    · exact (hm.new dev drv h).elim (hw.roots dev drv) id
    · exact (hw.held c hc).mono hm.old (hh ▸ .refl _)
    · exact (hw.log a (hl ▸ ha)).mono hm.old

theorem Safe.initial : Safe .initial := by
  refine ⟨.initial, fun dev drv h => ?_, fun _ hc => absurd hc not_mem_nil,
    fun _ ha => absurd ha not_mem_nil⟩
  cases h

end

/-- The paths that the call builds fit in their buffers. -/
def PathsFit (w : World) (i : Host × Call) : Prop :=
  ∀ t ∈ i.2.targets w.fs.heap, InBuffer i.1 w.fs t
deriving Decidable

/-- The calls are made on cookies that are held, their names stay below the root, their paths fit in
    the buffers, no counter wraps round, and no host directory has a treacherous entry. -/
def Behaved (w : World) (i : Host × Call) : Prop :=
  (Held w i ∧ Fits w ∧ StaysBelow w i ∧ PathsFit w i) ∧ Plain i.1

/-- **Confinement.**  Every path that a run of such calls hands to the host lies inside the root of
    the drive of its cookie. -/
theorem paths_inside_root (calls : List (Host × Call)) (h : Along step Behaved .initial calls) :
    ∀ a ∈ (run step .initial calls).fs.log, Confined (run step .initial calls).fs a :=
  (run_inv (P := Safe) (fun _ _ hw hi => hw.step hi.1.1 hi.1.2.1 hi.1.2.2.1 hi.2) calls
    .initial .initial h).log

theorem plain_obliging : Plain obliging := by
  rintro path entries (h | h) e he
  all_goals
    cases h
    cases he

/-- A directory is looked up, and another one made beside it. -/
def stroll : List (Host × Call) :=
  mountRoot ++
    [(obliging, .lookup (cookieAt 0) ['a']), (obliging, .mkdir (cookieAt 1) ['.', '.', '/', 'b']),
      (obliging, .release (cookieAt 1))]

theorem stroll_inside_root :
    ⟨2, .mkdir, ['/', 'r', '/', 'a', '/', '.', '.', '/', 'b']⟩ ∈ (run step .initial stroll).fs.log ∧
      ∀ a ∈ (run step .initial stroll).fs.log, Confined (run step .initial stroll).fs a := by
  have hhost : ∀ i ∈ stroll, i.1 = obliging := by
    simp [stroll, mountRoot]
  refine ⟨by decide +kernel, paths_inside_root stroll ?_⟩
  exact along_and _ _ (by decide +kernel)
    (along_of_forall (fun i hi => hhost i hi ▸ plain_obliging) _)

/-- The root of a drive is asked to remove its parent. -/
def climb : List (Host × Call) := mountRoot ++ [(obliging, .rmdir (cookieAt 0) ['.', '.'])]

/-- The host is called with the parent of the mounted directory, although the guest keeps to the
    rules. -/
theorem rmdir_climbs :
    Along step (fun w i => Held w i ∧ Fits w ∧ PathsFit w i) .initial climb ∧
      ∃ a ∈ (run step .initial climb).fs.log,
        a.path = ['/', 'r', '/', '.', '.'] ∧ ¬ Confined (run step .initial climb).fs a := by
  decide +kernel

end Aranym.HostFs
