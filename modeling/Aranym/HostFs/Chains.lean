/-
  From a cookie to a path.

  A cookie designates a node, and the names of the nodes above it lead from
  the root of a drive to it (`Chain`).  `cookie2Pathname` builds the path from
  these names, after the host had its say on each of them (`finals`).
-/
import Aranym.HostFs.Cookies
import Aranym.HostFs.Lexical

namespace Aranym.HostFs

open List

open Lib

/-! ## From a node up to the root -/

/-- The node at `k` has the names `ns`, the innermost first, below a root named `root`. -/
def Chain (heap : Nodes) (k : Ptr) (root : Str) (ns : List Str) : Prop :=
  ∃ l, Lineage XfsFsFile.parent heap k l ∧ l.map (·.2.name) = ns ++ [root]

/-- The names of the nodes from `k` up to the root, without that of the root. -/
def names (heap : Nodes) : ℕ → Ptr → List Str
  | 0, _ => []
  | fuel + 1, k =>
    match heap.get k with
    | none => []
    | some node =>
      match node.parent with
      | none => []
      | some parent => node.name :: names heap fuel parent

section
variable {heap heap' : Nodes} {k p : Ptr} {node : XfsFsFile} {root root' : Str}
variable {ns ns' : List Str}

theorem Chain.top (hk : heap.get k = some node) (hp : node.parent = none) :
    Chain heap k node.name [] :=
  ⟨_, .root hk hp, rfl⟩

theorem Chain.child (hk : heap.get k = some node) (hp : node.parent = some p)
    (hc : Chain heap p root ns) : Chain heap k root (node.name :: ns) := by
  obtain ⟨l, hl, heq⟩ := hc
  exact ⟨_, .child hk hp hl, congrArg (node.name :: ·) heq⟩

section

variable (hc : Chain heap k root ns)
include hc

theorem Chain.up (hk : heap.get k = some node)
    (hp : node.parent = some p) : ∃ ns', ns = node.name :: ns' ∧ Chain heap p root ns' := by
  obtain ⟨l, hl, heq⟩ := hc
  cases hl with
  | root hk' hp' =>
    rw [hk] at hk'
    cases hk'
    rw [hp] at hp'
    cases hp'
  | @child _ q a l hk' hp' hl =>
    rw [hk] at hk'
    cases hk'
    rw [hp] at hp'
    cases hp'
    cases ns with
    | nil =>
      rw [map_cons, nil_append, List.cons.injEq, map_eq_nil_iff] at heq
      rw [heq.2] at hl
      cases hl
    | cons n ns =>
      rw [map_cons, cons_append, List.cons.injEq] at heq
      exact ⟨ns, by rw [heq.1], l, hl, heq.2⟩

theorem Chain.unique (hc' : Chain heap k root' ns') : root = root' ∧ ns = ns' := by
  obtain ⟨l, hl, heq⟩ := hc
  obtain ⟨l', hl', heq'⟩ := hc'
  rw [hl.unique hl', heq'] at heq
  obtain ⟨hns, hroot⟩ := append_inj' heq rfl
  exact ⟨(List.singleton_inj.1 hroot).symm, hns.symm⟩

omit hc in
theorem Chain.exists (hr : Rooted XfsFsFile.parent heap) (hk : heap.get k = some node) :
    ∃ root ns, Chain heap k root ns ∧ ns.length < heap.length := by
  obtain ⟨l, hl, hlen⟩ := hr.exists_lineage hk
  have hne : l.map (·.2.name) ≠ [] := by
    cases hl <;> exact cons_ne_nil _ _
  refine ⟨(l.map (·.2.name)).getLast hne, (l.map (·.2.name)).dropLast,
    ⟨l, hl, (dropLast_append_getLast hne).symm⟩, ?_⟩
  have := List.length_pos_iff.2 hne
  rw [length_dropLast]
  rw [length_map] at this ⊢
  omega

theorem Chain.length_lt (hr : Rooted XfsFsFile.parent heap) : ns.length < heap.length := by
  have hlive : ∃ node, heap.get k = some node := by
    obtain ⟨l, hl, -⟩ := hc
    exact hl.live
  obtain ⟨node, hk⟩ := hlive
  obtain ⟨root', ns', hc', hlen⟩ := Chain.exists hr hk
  rwa [(hc.unique hc').2]

theorem Chain.mono (hkeeps : Keeps heap heap') : Chain heap' k root ns := by
  obtain ⟨l, hl, heq⟩ := hc
  obtain ⟨l', hl', hmap⟩ := hl.mono XfsFsFile.name hkeeps
  have hnames := congrArg (List.map Prod.snd) hmap
  rw [map_map, map_map] at hnames
  exact ⟨l', hl', hnames.trans heq⟩

theorem Chain.of_kept (hkeeps : Keeps heap' heap) (hr : Rooted XfsFsFile.parent heap')
    (hk : heap'.get k = some node) : Chain heap' k root ns := by
  obtain ⟨root', ns', hc', -⟩ := Chain.exists hr hk
  obtain ⟨hroot, hns⟩ := hc.unique (hc'.mono hkeeps)
  rwa [hroot, hns]

theorem names_eq : ∀ {fuel : ℕ}, ns.length < fuel → names heap fuel k = ns := by
  obtain ⟨l, hl, heq⟩ := hc
  induction hl generalizing ns with
  | @root k a hk hp =>
    intro fuel hfuel
    cases fuel with
    | zero => cases hfuel
    | succ fuel =>
      have hns : ns = [] := by
        have := congrArg List.length heq
        simpa using this
      simp only [names, hk, hp, hns]
  | @child k p a l hk hp hl ih =>
    intro fuel hfuel
    obtain ⟨ns', rfl, l', hl', heq'⟩ := Chain.up ⟨_, .child hk hp hl, heq⟩ hk hp
    cases fuel with
    | zero => cases hfuel
    | succ fuel =>
      simp only [names, hk, hp]
      rw [ih (hl.unique hl' ▸ heq') (Nat.lt_of_succ_lt_succ hfuel)]

end

theorem keeps_alter {f : XfsFsFile → XfsFsFile}
    (hf : ∀ n, (f n).parent = n.parent ∧ (f n).name = n.name) : Keeps heap (heap.alter p f) := by
  intro k n hk
  rw [Heap.get_alter, hk]
  split_ifs
  exacts [⟨f n, rfl, hf n⟩, ⟨n, rfl, rfl, rfl⟩]

theorem keeps_enter (hp : heap.get p = none) (hkeeps : Keeps heap heap') :
    Keeps heap ((p, node) :: heap') := by
  intro k n hk
  rw [Heap.get_cons_of_ne]
  · exact hkeeps k n hk
  · rintro rfl
    rw [hp] at hk
    cases hk

end

/-! ## Paths of cookies -/

section
variable (host : Host) (drv : Option ExtDrive) (root : Str)

/-- What the host makes of the names, from the root on. -/
def finals : List Str → List Str
  | [] => []
  | n :: ns =>
    (if n = [] then [] else (getHostFileName host drv (joined (render root (finals ns))) n).1) ::
      finals ns

/-- The system calls that ask for the names. -/
def asked : List Str → List (Sys × Str)
  | [] => []
  | n :: ns =>
    asked ns ++
      if n = [] then []
      else (getHostFileName host drv (joined (render root (finals host drv root ns))) n).2

theorem finals_cons {n : Str} (hn : n ≠ []) (ns : List Str) : finals host drv root (n :: ns) =
      (getHostFileName host drv (joined (render root (finals host drv root ns))) n).1 ::
        finals host drv root ns := by
  rw [finals, if_neg hn]

theorem asked_cons {n : Str} (hn : n ≠ []) (ns : List Str) :
    asked host drv root (n :: ns) = asked host drv root ns ++
      (getHostFileName host drv (joined (render root (finals host drv root ns))) n).2 := by
  rw [asked, if_neg hn]

end

section
variable {host : Host} {drv : Option ExtDrive} {root : Str}

theorem getHostFileName_ne_nil {dir n : Str} (hn : n ≠ []) :
    (getHostFileName host drv dir n).1 ≠ [] := by
  unfold getHostFileName
  by_cases hmask : n.any (fun c => c = '*' || c = '?') = true
  · rwa [if_pos hmask]
  · rw [if_neg hmask]
    cases host.stat (dir ++ n) with
    | none => exact hn
    | some err =>
      cases hdir : (hostOpendir host dir).1 with
      | error err =>
        simp only [hdir]
        exact hn
      | ok entries =>
        simp only [hdir]
        cases entries.find? (namesEntry drv n) with
        | some e => exact e.name.ne_nil
        | none =>
          split_ifs
          · simpa using hn
          · exact hn

/-- The last step of `cookie2Pathname`, the same at every level. -/
def addName (host : Host) (drv : Option ExtDrive) (path : Str) (log : List (Sys × Str)) :
    Option Str → Option (Str × List (Sys × Str))
  | none | some [] => some (path, log)
  | some name =>
    let (result, more) := getHostFileName host drv (joined path) name
    some (joined path ++ result, log ++ more)

theorem addName_eq (ns : List Str) (name : Option Str) :
    addName host drv (render root (finals host drv root ns)) (asked host drv root ns) name =
      some (render root (finals host drv root (name.getD [] :: ns)),
        asked host drv root (name.getD [] :: ns)) := by
  rcases name with _ | _ | ⟨c, cs⟩
  · simp [addName, finals, asked, render]
  · simp [addName, finals, asked, render]
  · have hn : c :: cs ≠ [] := cons_ne_nil c cs
    rw [Option.getD_some, finals_cons _ _ _ hn, asked_cons _ _ _ hn,
      render_cons (getHostFileName_ne_nil hn)]
    rfl

theorem cookie2Pathname_eq {heap : Nodes} {k : Ptr} {ns : List Str}
    (hc : Chain heap k root ns) : ∀ {fuel : ℕ}, ns.length < fuel → ∀ name : Option Str,
      cookie2Pathname host heap drv fuel k name =
        some (render root (finals host drv root (name.getD [] :: ns)),
          asked host drv root (name.getD [] :: ns)) := by
  obtain ⟨l, hl, heq⟩ := hc
  induction hl generalizing ns with
  | @root k a hk hparent =>
    intro fuel hfuel name
    cases fuel with
    | zero => cases hfuel
    | succ fuel =>
      have hns : ns = [] ∧ a.name = root := by
        cases ns with
        | nil => simpa using heq
        | cons n ns => simp at heq
      obtain ⟨rfl, rfl⟩ := hns
      simp only [cookie2Pathname, hk, hparent, Option.bind_eq_bind, Option.bind_some]
      exact addName_eq [] name
  | @child k p a l hk hparent hl ih =>
    intro fuel hfuel name
    obtain ⟨ns', rfl, l', hl', heq'⟩ := Chain.up ⟨_, .child hk hparent hl, heq⟩ hk hparent
    cases fuel with
    | zero => cases hfuel
    | succ fuel =>
      simp only [cookie2Pathname, hk, hparent, Option.bind_eq_bind, Option.bind_some,
        ih (hl.unique hl' ▸ heq') (Nat.lt_of_succ_lt_succ hfuel) (some a.name)]
      exact addName_eq (a.name :: ns') name

theorem pathname_eq {s : State} {fc : XfsCookie} {ns : List Str}
    (hc : Chain s.heap fc.index root ns)
    (hlen : ns.length < s.heap.length) (host : Host) (name : Option Str) : pathname host fc name s =
      .ok (render root (finals host (s.mounts.lookup fc.dev) root (name.getD [] :: ns))) { s with
          log := s.log ++ (asked host (s.mounts.lookup fc.dev) root (name.getD [] :: ns)).map
            (fun c => ⟨fc.dev, c.1, c.2⟩) } := by
  unfold pathname
  rw [bind_of_ok _ (rfl : (get : Xfs State) s = .ok s s), cookie2Pathname_eq hc hlen]
  rfl

end

/-! ## New nodes -/

section
variable {host : Host}

theorem keeps_withChild (heap : Nodes) (p : Ptr) (name : Str) :
    Keeps heap (withChild host heap p name) :=
  keeps_enter (host.new_fresh heap) (keeps_alter fun _ => ⟨by rfl, by rfl⟩)

theorem keeps_withCookie (heap : Nodes) (p : Ptr) : Keeps heap (withCookie heap p) :=
  keeps_alter fun _ => ⟨by rfl, by rfl⟩

variable {p : Ptr}

theorem chain_withChild {heap : Nodes} {root name : Str} {ns : List Str}
    (hc : Chain heap p root ns) :
    Chain (withChild host heap p name) (host.new heap) root (name :: ns) :=
  .child (Heap.get_cons_self _ _ _) rfl (hc.mono (keeps_withChild heap p name))

variable {node : XfsFsFile}

theorem rooted_withChild {heap : Nodes}
    (hr : Rooted XfsFsFile.parent heap) (hp : heap.get p = some node) (name : Str) :
    Rooted XfsFsFile.parent (withChild host heap p name) := by
  refine ⟨?_, ?_, rooted_alter p (fun _ => by rfl) hr⟩
  · rw [Heap.get_alter, host.new_fresh]
    split_ifs <;> rfl
  · rintro q ⟨⟩
    rw [Heap.get_alter, if_pos rfl, hp]
    exact ⟨_, rfl⟩

variable {s : State}

theorem deref_ok (hp : s.heap.get p = some node) : deref p s = .ok node s := by
  unfold deref
  rw [bind_of_ok _ (rfl : (get : Xfs State) s = .ok s s), hp]
  rfl

theorem update_ok (hp : s.heap.get p = some node)
    (f : XfsFsFile → XfsFsFile) : update p f s = .ok () { s with heap := s.heap.alter p f } := by
  unfold update
  rw [bind_of_ok _ (deref_ok hp)]
  rfl

theorem newChild_ok (hp : s.heap.get p = some node) (host : Host) (name : Str) :
    newChild host p name s =
      .ok (host.new s.heap) { s with heap := withChild host s.heap p name } := by
  have hnew : newFsFile host (some p) name s = .ok (host.new s.heap)
      { s with heap := (host.new s.heap, ⟨some p, 1, 0, false, name⟩) :: s.heap } := rfl
  have hp' : Heap.get ((host.new s.heap, (⟨some p, 1, 0, false, name⟩ : XfsFsFile)) :: s.heap) p =
      some node := by
    rw [Heap.get_cons_of_ne _ _ (new_ne hp), hp]
  have hheap : Heap.alter ((host.new s.heap, (⟨some p, 1, 0, false, name⟩ : XfsFsFile)) :: s.heap) p
      (fun n => { n with childCount := n.childCount + 1 }) = withChild host s.heap p name := by
    rw [Heap.alter, map_cons, if_neg (new_ne hp).symm]
    rfl
  unfold newChild
  rw [bind_of_ok _ hnew, bind_of_ok _ (update_ok hp' _), ← hheap]
  rfl

end

end Aranym.HostFs
