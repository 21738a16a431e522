/-
  The life of file cookies.

  Every cookie that a call returned and that was not released since is held.
  The counters of a node count the cookies held on it and the live nodes below
  it, modulo 2 ^ 32 (`Counted`); `xfs_freefs` trusts them.  As long as they do
  not wrap round, a node is live exactly while one of its counts is not zero.
-/
import Aranym.HostFs.Effects

namespace Aranym.HostFs

open List

open Lib

/-! ## Counts -/

/-- The number of cookies held on a node. -/
def cookies (held : List Handle) (k : Ptr) : ℕ := held.countP (·.index = k)

/-- The number of live nodes below a node. -/
def kids (heap : Nodes) (k : Ptr) : ℕ := children XfsFsFile.parent heap k

/-- The counters are the counts, as far as 32 bits hold them. -/
structure Counted (refs : Ptr → ℕ) (heap : Nodes) : Prop where
  rooted : Rooted XfsFsFile.parent heap
  refCount : ∀ k n, heap.get k = some n → n.refCount = BitVec.ofNat 32 (refs k)
  childCount : ∀ k n, heap.get k = some n → n.childCount = BitVec.ofNat 32 (kids heap k)

theorem ofNat_eq_zero {n : ℕ} (hn : n < 2 ^ 32) : BitVec.ofNat 32 n = 0 ↔ n = 0 := by
  constructor
  · intro h
    have := congrArg BitVec.toNat h
    rwa [BitVec.toNat_ofNat, Nat.mod_eq_of_lt hn] at this
  · rintro rfl
    rfl

theorem ofNat_succ (n : ℕ) : BitVec.ofNat 32 (n + 1) = BitVec.ofNat 32 n + 1 :=
  BitVec.ofNat_add n 1

theorem ofNat_succ_sub_one (n : ℕ) : BitVec.ofNat 32 (n + 1) - 1 = BitVec.ofNat 32 n := by
  rw [ofNat_succ, BitVec.add_sub_cancel]

variable {refs refs' : Ptr → ℕ} {heap : Nodes} {k p : Ptr} {node : XfsFsFile}

variable {f : XfsFsFile → XfsFsFile}

/-- A change of one node that keeps its parent, and moves its counters with the counts. -/
theorem Counted.alter (hc : Counted refs heap)
    (hf : ∀ n, (f n).parent = n.parent) (hk : heap.get k = some node)
    (hrefs : ∀ j, j ≠ k → refs' j = refs j) (href : (f node).refCount = BitVec.ofNat 32 (refs' k))
    (hchild : (f node).childCount = BitVec.ofNat 32 (kids heap k)) :
    Counted refs' (heap.alter k f) := by
  refine ⟨rooted_alter k hf hc.rooted, fun j n hj => ?_, fun j n hj => ?_⟩
  · rw [Heap.get_alter] at hj
    split_ifs at hj with hjk
    · subst hjk
      rw [hk] at hj
      cases hj
      exact href
    · rw [hrefs j hjk]
      exact hc.refCount j n hj
  · rw [kids, children_alter heap k hf, ← kids]
    rw [Heap.get_alter] at hj
    split_ifs at hj with hjk
    · subst hjk
      rw [hk] at hj
      cases hj
      exact hchild
    · exact hc.childCount j n hj

/-- A new count of children for a parent. -/
def recount (g : U32 → U32) (heap : Nodes) :
    Option Ptr → Nodes
  | none => heap
  | some p => heap.alter p fun n => { n with childCount := g n.childCount }

section
variable (g : U32 → U32)

theorem get_recount (heap : Nodes) (parent : Option Ptr) (j : Ptr) :
    (recount g heap parent).get j =
      if parent = some j then (heap.get j).map fun n => { n with childCount := g n.childCount }
      else heap.get j := by
  cases parent with
  | none => rfl
  | some p =>
    rw [recount, Heap.get_alter]
    by_cases hj : j = p
    · rw [if_pos hj, if_pos (by rw [hj])]
    · rw [if_neg hj, if_neg (fun h => hj (Option.some.inj h).symm)]

theorem kids_recount (heap : Nodes) (parent : Option Ptr) (j : Ptr) :
    kids (recount g heap parent) j = kids heap j := by
  cases parent with
  | none => rfl
  | some p =>
    rw [recount, kids, children_alter heap p fun _ => by rfl]
    rfl

theorem rooted_recount (parent : Option Ptr) (hr : Rooted XfsFsFile.parent heap) :
    Rooted XfsFsFile.parent (recount g heap parent) := by
  cases parent with
  | none => exact hr
  | some p =>
    rw [recount]
    exact rooted_alter p (fun _ => by rfl) hr

end

theorem kids_enter (heap : Nodes) (parent : Option Ptr) (name : Str) (j : Ptr) :
    kids ((k, ⟨parent, 1, 0, false, name⟩) :: recount (· + 1) heap parent) j =
      kids heap j + if parent = some j then 1 else 0 := by
  rw [kids, children_cons, ← kids, kids_recount]

theorem Counted.enter (hc : Counted refs heap) {parent : Option Ptr} {name : Str}
    (hk : heap.get k = none) (hparent : ∀ q, parent = some q → ∃ n, heap.get q = some n)
    (hrefs : ∀ j, refs' j = refs j + if j = k then 1 else 0) (hzero : refs k = 0) :
    Counted refs' ((k, ⟨parent, 1, 0, false, name⟩) :: recount (· + 1) heap parent) := by
  have hkp : parent ≠ some k := by
    rintro h
    obtain ⟨n, hn⟩ := hparent k h
    rw [hk] at hn
    cases hn
  have hold : ∀ j n, (recount (· + 1) heap parent).get j = some n → ∃ m, heap.get j = some m ∧
      n.refCount = m.refCount ∧
      n.childCount = m.childCount + if parent = some j then 1 else 0 := by
    intro j n hj
    rw [get_recount] at hj
    split_ifs at hj ⊢
    · obtain ⟨m, hm, rfl⟩ := Option.map_eq_some_iff.1 hj
      exact ⟨m, hm, rfl, rfl⟩
    · exact ⟨n, hj, rfl, (BitVec.add_zero _).symm⟩
  refine ⟨⟨?_, ?_, rooted_recount _ parent hc.rooted⟩, fun j n hj => ?_, fun j n hj => ?_⟩
  · rw [get_recount, if_neg hkp, hk]
  · intro q hq
    obtain ⟨n, hn⟩ := hparent q hq
    rw [get_recount, if_pos hq, hn]
    exact ⟨_, rfl⟩
  · rw [Heap.get_cons] at hj
    rw [hrefs]
    split_ifs at hj ⊢ with hjk
    · cases hj
      rw [hjk, hzero]
      rfl
    · obtain ⟨m, hm, href, -⟩ := hold j n hj
      rw [href, hc.refCount j m hm]
      rfl
  · rw [Heap.get_cons] at hj
    rw [kids_enter]
    split_ifs at hj with hjk
    · cases hj
      rw [hjk, if_neg hkp, kids, hc.rooted.children_of_dead hk]
      rfl
    · obtain ⟨m, hm, -, hchild⟩ := hold j n hj
      rw [hchild, hc.childCount j m hm]
      split_ifs
      · exact (ofNat_succ _).symm
      · exact BitVec.add_zero _

/-! ## Freeing -/

/-- The heap without a leaf. -/
def without (heap : Nodes) (k : Ptr) (node : XfsFsFile) : Nodes :=
  (recount (· - 1) heap node.parent).free k

section

variable (hr : Rooted XfsFsFile.parent heap) (hk : heap.get k = some node)
include hr hk

theorem parent_ne_self : node.parent ≠ some k := by
  intro hp
  obtain ⟨l, hl, -⟩ := hr.exists_lineage hk
  have := congrArg List.length (hl.unique (.child hk hp hl))
  rw [length_cons] at this
  omega

theorem get_recount_parent (g : U32 → U32) : (recount g heap node.parent).get k = some node := by
  rw [get_recount, if_neg (parent_ne_self hr hk), hk]

theorem length_without : (without heap k node).length + 1 = heap.length := by
  rw [without, (rooted_recount _ node.parent hr).length_free (get_recount_parent hr hk _)]
  cases node.parent with
  | none => rfl
  | some p =>
    rw [recount]
    exact Heap.length_alter heap p _

theorem kids_without (j : Ptr) :
    kids (without heap k node) j + (if node.parent = some j then 1 else 0) = kids heap j := by
  have := (rooted_recount _ node.parent hr).children_free (get_recount_parent hr hk (· - 1)) j
  rw [← kids, ← kids, kids_recount] at this
  exact this

end

theorem Counted.without (hc : Counted refs heap) (hk : heap.get k = some node)
    (hleaf : kids heap k = 0) : Counted refs (without heap k node) := by
  have hold : ∀ j n, (HostFs.without heap k node).get j = some n → ∃ m, heap.get j = some m ∧
      n.refCount = m.refCount ∧
      n.childCount = m.childCount - if node.parent = some j then 1 else 0 := by
    intro j n hj
    rw [HostFs.without, Heap.get_free] at hj
    split_ifs at hj
    rw [get_recount] at hj
    split_ifs at hj ⊢
    · obtain ⟨m, hm, rfl⟩ := Option.map_eq_some_iff.1 hj
      exact ⟨m, hm, rfl, rfl⟩
    · exact ⟨n, hj, rfl, (BitVec.sub_zero _).symm⟩
  refine ⟨?_, fun j n hj => ?_, fun j n hj => ?_⟩
  · refine (rooted_recount _ node.parent hc.rooted).free ?_
    rwa [← kids, kids_recount]
  · obtain ⟨m, hm, href, -⟩ := hold j n hj
    rw [href, hc.refCount j m hm]
  · obtain ⟨m, hm, -, hchild⟩ := hold j n hj
    rw [hchild, hc.childCount j m hm, ← kids_without hc.rooted hk j]
    split_ifs
    · exact ofNat_succ_sub_one _
    · exact BitVec.sub_zero _

theorem xfsFreefs_succ (fuel : ℕ) (hk : heap.get k = some node) : xfsFreefs (fuel + 1) heap k =
      if node.refCount = 0 ∧ node.childCount = 0 then
        match node.parent with
        | none => heap.free k
        | some p => (xfsFreefs fuel (recount (· - 1) heap (some p)) p).free k
      else heap := by
  rw [xfsFreefs, hk]
  rfl

theorem lineage_recount (g : U32 → U32) (parent : Option Ptr)
    {l : Nodes} (hl : Lineage XfsFsFile.parent heap p l) :
    ∃ l', Lineage XfsFsFile.parent (recount g heap parent) p l' ∧ ∀ c ∈ l', ∃ d ∈ l, d.1 = c.1 := by
  have hget : ∀ j n, heap.get j = some n →
      ∃ m, (recount g heap parent).get j = some m ∧ m.parent = n.parent ∧ () = () := by
    intro j n hj
    rw [get_recount, hj]
    split_ifs
    exacts [⟨_, rfl, rfl, rfl⟩, ⟨n, rfl, rfl, rfl⟩]
  obtain ⟨l', hl', heq⟩ := hl.mono (fun _ => ()) hget
  refine ⟨l', hl', fun c hc => ?_⟩
  have hmem : (c.1, ()) ∈ l.map fun d => (d.1, ()) := heq ▸ mem_map_of_mem hc
  obtain ⟨d, hd, hdc⟩ := List.mem_map.1 hmem
  exact ⟨d, hd, (Prod.mk.inj hdc).1⟩

/-- Freeing a node and freeing nodes that are not below it can be exchanged. -/
theorem free_xfsFreefs (fuel : ℕ) : ∀ {heap : Nodes} {p : Ptr} {l : Nodes},
      Lineage XfsFsFile.parent heap p l → (∀ c ∈ l, c.1 ≠ k) →
      (xfsFreefs fuel heap p).free k = xfsFreefs fuel (heap.free k) p := by
  induction fuel with
  | zero => exact fun _ _ => rfl
  | succ fuel ih =>
    intro heap p l hl hne
    cases hl with
    | root hp hparent =>
      have hpk := hne _ mem_cons_self
      rw [xfsFreefs_succ fuel hp, xfsFreefs_succ fuel ((Heap.get_free_of_ne heap hpk).trans hp)]
      simp only [hparent]
      split_ifs
      exacts [Heap.free_comm heap p k, rfl]
    | @child _ q a l hp hparent hl =>
      have hpk := hne _ mem_cons_self
      rw [xfsFreefs_succ fuel hp, xfsFreefs_succ fuel ((Heap.get_free_of_ne heap hpk).trans hp)]
      simp only [hparent]
      split_ifs
      · obtain ⟨l', hl', hmem⟩ := lineage_recount (· - 1) (some q) hl
        have hne' : ∀ c ∈ l', c.1 ≠ k := by
          intro c hc
          obtain ⟨d, hd, heq⟩ := hmem c hc
          rw [← heq]
          exact hne d (mem_cons_of_mem _ hd)
        rw [Heap.free_comm, ih hl' hne', recount, recount, Heap.free_alter]
      · rfl

theorem xfsFreefs_dead (fuel : ℕ) (hr : Rooted XfsFsFile.parent heap)
    (hk : heap.get k = some node) (href : node.refCount = 0) (hchild : node.childCount = 0) :
    xfsFreefs (fuel + 1) heap k =
      match node.parent with
      | none => without heap k node
      | some p => xfsFreefs fuel (without heap k node) p := by
  rw [xfsFreefs_succ fuel hk, if_pos ⟨href, hchild⟩]
  unfold without
  cases hp : node.parent with
  | none => rfl
  | some p =>
    obtain ⟨n, hn⟩ := hr.parent_live hk hp
    obtain ⟨l, hl, -⟩ := hr.exists_lineage hn
    obtain ⟨l', hl', hmem⟩ := lineage_recount (· - 1) (some p) hl
    refine free_xfsFreefs fuel hl' fun c hc => ?_
    obtain ⟨d, hd, heq⟩ := hmem c hc
    rw [← heq]
    exact Lineage.not_above hk hp hl d hd

/-- The nodes of a heap are in another, below the same parents and with the same names. -/
def Keeps (heap heap' : Nodes) : Prop :=
  ∀ k n, heap.get k = some n → ∃ m, heap'.get k = some m ∧ m.parent = n.parent ∧ m.name = n.name

theorem Keeps.refl (heap : Nodes) : Keeps heap heap := fun _ n hk => ⟨n, hk, rfl, rfl⟩

theorem Keeps.trans {heap1 heap2 heap3 : Nodes} (h1 : Keeps heap1 heap2)
    (h2 : Keeps heap2 heap3) : Keeps heap1 heap3 := by
  intro k n hk
  obtain ⟨m, hm, hpar, hname⟩ := h1 k n hk
  obtain ⟨m', hm', hpar', hname'⟩ := h2 k m hm
  exact ⟨m', hm', hpar'.trans hpar, hname'.trans hname⟩

/-- What `xfs_freefs` leaves of a heap. -/
structure Freed (refs : Ptr → ℕ) (heap heap' : Nodes) : Prop where
  counted : Counted refs heap'
  used : ∀ k n, heap'.get k = some n → refs k ≠ 0 ∨ kids heap' k ≠ 0
  kept : Keeps heap' heap
  held : ∀ k n, heap.get k = some n → refs k ≠ 0 → ∃ m, heap'.get k = some m
  kids_le : ∀ k, kids heap' k ≤ kids heap k

theorem Counted.alive (hc : Counted refs heap) (hk : heap.get k = some node)
    (h : ¬ (node.refCount = 0 ∧ node.childCount = 0)) : refs k ≠ 0 ∨ kids heap k ≠ 0 := by
  by_contra hzero
  push Not at hzero
  refine h ⟨?_, ?_⟩
  · rw [hc.refCount k node hk, hzero.1]
    rfl
  · rw [hc.childCount k node hk, hzero.2]
    rfl

theorem keeps_without (heap : Nodes) (k : Ptr) (node : XfsFsFile) :
    Keeps (without heap k node) heap := by
  intro j n hj
  rw [without, Heap.get_free] at hj
  split_ifs at hj
  rw [get_recount] at hj
  split_ifs at hj
  · obtain ⟨m, hm, rfl⟩ := Option.map_eq_some_iff.1 hj
    exact ⟨m, hm, rfl, rfl⟩
  · exact ⟨n, hj, rfl, rfl⟩

variable {j : Ptr}

theorem live_without (node : XfsFsFile) {n : XfsFsFile} (hjk : j ≠ k) (hj : heap.get j = some n) :
    ∃ m, (without heap k node).get j = some m := by
  rw [without, Heap.get_free_of_ne _ hjk, get_recount, hj]
  split_ifs
  exacts [⟨_, rfl⟩, ⟨n, rfl⟩]

theorem used_without (hr : Rooted XfsFsFile.parent heap) (hk : heap.get k = some node)
    (hused : ∀ j n, heap.get j = some n → j ≠ k → refs j ≠ 0 ∨ kids heap j ≠ 0) {n : XfsFsFile}
    (hj : (without heap k node).get j = some n) (hne : node.parent ≠ some j) :
    refs j ≠ 0 ∨ kids (without heap k node) j ≠ 0 := by
  obtain ⟨m, hm, -⟩ := keeps_without heap k node j n hj
  have hjk : j ≠ k := by
    rintro rfl
    rw [without, Heap.get_free, if_pos rfl] at hj
    cases hj
  have hkids := kids_without hr hk j
  rw [if_neg hne, Nat.add_zero] at hkids
  rw [hkids]
  exact hused j m hm hjk

theorem xfsFreefs_spec (hrefs : ∀ j, refs j < 2 ^ 32) (fuel : ℕ) :
    ∀ {heap : Nodes} {k : Ptr} {node : XfsFsFile}, Counted refs heap →
      (∀ j, kids heap j < 2 ^ 32) → heap.get k = some node →
      (∀ j n, heap.get j = some n → j ≠ k → refs j ≠ 0 ∨ kids heap j ≠ 0) → heap.length ≤ fuel →
      Freed refs heap (xfsFreefs fuel heap k) := by
  induction fuel with
  | zero =>
    intro heap k node _ _ hk _ hlen
    rw [List.length_eq_zero_iff.1 (Nat.le_zero.1 hlen)] at hk
    cases hk
  | succ fuel ih =>
    intro heap k node hc hkids hk hused hlen
    by_cases hdead : node.refCount = 0 ∧ node.childCount = 0
    · have href : refs k = 0 := by
        rw [← ofNat_eq_zero (hrefs k), ← hc.refCount k node hk]
        exact hdead.1
      have hleaf : kids heap k = 0 := by
        rw [← ofNat_eq_zero (hkids k), ← hc.childCount k node hk]
        exact hdead.2
      have hc' := hc.without hk hleaf
      have hkept := keeps_without heap k node
      have hheld : ∀ j n, heap.get j = some n → refs j ≠ 0 →
          ∃ m, (without heap k node).get j = some m := by
        intro j n hj hne
        refine live_without node ?_ hj
        rintro rfl
        exact hne href
      have hle : ∀ j, kids (without heap k node) j ≤ kids heap j := fun j => by
        have := kids_without hc.rooted hk j
        omega
      have hothers := fun j n => used_without (j := j) (n := n) hc.rooted hk hused
      rw [xfsFreefs_dead fuel hc.rooted hk hdead.1 hdead.2]
      cases hp : node.parent with
      | none =>
        rw [hp] at hothers
        exact ⟨hc', fun j n hj => hothers j n hj (by simp), hkept, hheld, hle⟩
      | some p =>
        obtain ⟨n, hn⟩ := hc.rooted.parent_live hk hp
        have hpk : p ≠ k := fun heq => parent_ne_self hc.rooted hk (heq ▸ hp)
        obtain ⟨m, hm⟩ := live_without node hpk hn
        have hlen' : (without heap k node).length ≤ fuel := by
          have := length_without hc.rooted hk
          omega
        have hrec := ih hc' (fun j => Nat.lt_of_le_of_lt (hle j) (hkids j)) hm
          (fun j i hj hjp => hothers j i hj fun h => hjp (Option.some.inj (hp ▸ h)).symm) hlen'
        refine ⟨hrec.counted, hrec.used, hrec.kept.trans hkept, fun j i hj hne => ?_, fun j =>
          Nat.le_trans (hrec.kids_le j) (hle j)⟩
        obtain ⟨m, hm⟩ := hheld j i hj hne
        exact hrec.held j m hm hne
    · rw [xfsFreefs_succ fuel hk, if_neg hdead]
      refine ⟨hc, fun j n hj => ?_, .refl heap, fun j n hj _ => ⟨n, hj⟩, fun _ => Nat.le_refl _⟩
      by_cases hjk : j = k
      · subst hjk
        rw [hk] at hj
        cases hj
        exact hc.alive hk hdead
      · exact hused j n hj hjk

/-! ## Runs -/

/-- The counters are exact, and the counts tell which nodes are live. -/
structure Inv (w : World) : Prop where
  counted : Counted (cookies w.held) w.fs.heap
  used : ∀ k n, w.fs.heap.get k = some n → cookies w.held k ≠ 0 ∨ kids w.fs.heap k ≠ 0
  live : ∀ c ∈ w.held, ∃ n, w.fs.heap.get c.index = some n
  fits : ∀ k, cookies w.held k < 2 ^ 32 ∧ kids w.fs.heap k < 2 ^ 32

/-- Neither counter of any node is at its last value. -/
def Fits (w : World) : Prop :=
  ∀ c ∈ w.fs.heap, cookies w.held c.1 + 1 < 2 ^ 32 ∧ kids w.fs.heap c.1 + 1 < 2 ^ 32
deriving Decidable

variable {w : World} {c : Handle} {host : Host} {call : Call}

theorem cookies_cons (c : Handle) (held : List Handle) (j : Ptr) :
    cookies (c :: held) j = cookies held j + if j = c.index then 1 else 0 := by
  rw [cookies, countP_cons, ← cookies]
  simp [eq_comm]

theorem cookies_erase (held : List Handle) (hc : c ∈ held) (j : Ptr) :
    cookies (held.erase c) j + (if j = c.index then 1 else 0) = cookies held j := by
  rw [← cookies_cons, cookies, cookies, (perm_cons_erase hc).countP_eq]

theorem cookies_eq_zero {held : List Handle} : cookies held k = 0 ↔ ∀ c ∈ held, c.index ≠ k := by
  simp [cookies, countP_eq_zero]

theorem Inv.cookies_of_dead (hw : Inv w) (hk : w.fs.heap.get k = none) : cookies w.held k = 0 := by
  rw [cookies_eq_zero]
  rintro c hc rfl
  obtain ⟨n, hn⟩ := hw.live c hc
  rw [hk] at hn
  cases hn

theorem Inv.room (hw : Inv w) (hfits : Fits w) (j : Ptr) :
    cookies w.held j + 1 < 2 ^ 32 ∧ kids w.fs.heap j + 1 < 2 ^ 32 := by
  cases hj : w.fs.heap.get j with
  | some n => exact hfits _ (Heap.mem_of_get hj)
  | none =>
    rw [hw.cookies_of_dead hj, kids, hw.counted.rooted.children_of_dead hj]
    decide

theorem kids_alter (hf : ∀ n, (f n).parent = n.parent) (j : Ptr) :
    kids (heap.alter k f) j = kids heap j :=
  children_alter heap k hf j

theorem live_alter : (∃ n, (heap.alter k f).get j = some n) ↔ ∃ n, heap.get j = some n := by
  rw [Heap.get_alter]
  split_ifs
  · simp [Option.map_eq_some_iff]
  · exact .rfl

variable {fs : State}

theorem Inv.quiet (hw : Inv w) (hq : Quiet w.fs.heap fs.heap) : Inv ⟨fs, w.held⟩ := by
  rcases hq with heq | ⟨p, node, hp, heq⟩
  · refine ⟨?_, ?_, ?_, ?_⟩
    · exact heq ▸ hw.counted
    · exact heq ▸ hw.used
    · exact heq ▸ hw.live
    · exact heq ▸ hw.fits
  · have hkids : ∀ j, kids fs.heap j = kids w.fs.heap j := fun j => by
      rw [heq, kids_alter fun _ => by rfl]
    have hlive : ∀ j, (∃ n, fs.heap.get j = some n) ↔ ∃ n, w.fs.heap.get j = some n := fun j => by
      rw [heq, live_alter]
    refine ⟨?_, fun k n hk => ?_, fun c hc => (hlive _).2 (hw.live c hc), fun j => ?_⟩
    · rw [heq]
      exact hw.counted.alter (fun _ => by rfl) hp (fun _ _ => rfl) (hw.counted.refCount p node hp)
        (hw.counted.childCount p node hp)
    · obtain ⟨m, hm⟩ := (hlive k).1 ⟨n, hk⟩
      rw [hkids]
      exact hw.used k m hm
    · rw [hkids]
      exact hw.fits j

theorem Inv.enter (hw : Inv w) (hfits : Fits w) {parent : Option Ptr} {name : Str}
    (hk : w.fs.heap.get c.index = none)
    (hparent : ∀ q, parent = some q → ∃ n, w.fs.heap.get q = some n)
    (hfs : fs.heap = (c.index, ⟨parent, 1, 0, false, name⟩) :: recount (· + 1) w.fs.heap parent) :
    Inv ⟨fs, c :: w.held⟩ := by
  have hkids : ∀ j, kids fs.heap j = kids w.fs.heap j + if parent = some j then 1 else 0 :=
    fun j => by rw [hfs, kids_enter]
  have hold : ∀ j, j ≠ c.index →
      ((∃ n, fs.heap.get j = some n) ↔ ∃ n, w.fs.heap.get j = some n) := by
    intro j hj
    rw [hfs, Heap.get_cons_of_ne _ _ hj, get_recount]
    split_ifs
    · simp [Option.map_eq_some_iff]
    · exact .rfl
  refine ⟨?_, fun j n hj => ?_, fun d hd => ?_, fun j => ?_⟩
  · rw [hfs]
    exact hw.counted.enter hk hparent (cookies_cons c w.held) (hw.cookies_of_dead hk)
  · rw [cookies_cons, hkids]
    by_cases hjc : j = c.index
    · rw [if_pos hjc]
      exact .inl (Nat.succ_ne_zero _)
    · obtain ⟨m, hm⟩ := (hold j hjc).1 ⟨n, hj⟩
      have := hw.used j m hm
      omega
  · rcases List.mem_cons.1 hd with rfl | hd
    · rw [hfs]
      exact ⟨_, Heap.get_cons_self _ _ _⟩
    · obtain ⟨n, hn⟩ := hw.live d hd
      have hne : d.index ≠ c.index := by
        intro heq
        rw [heq, hk] at hn
        cases hn
      exact (hold _ hne).2 ⟨n, hn⟩
  · have hroom := hw.room hfits j
    rw [cookies_cons, hkids]
    split_ifs <;> omega

theorem Inv.share (hw : Inv w) (hfits : Fits w) (hk : w.fs.heap.get c.index = some node)
    (hfs : fs.heap = withCookie w.fs.heap c.index) : Inv ⟨fs, c :: w.held⟩ := by
  have hkids : ∀ j, kids fs.heap j = kids w.fs.heap j := fun j => by
    rw [hfs, withCookie, kids_alter fun _ => by rfl]
  have hlive : ∀ j, (∃ n, fs.heap.get j = some n) ↔ ∃ n, w.fs.heap.get j = some n := fun j => by
    rw [hfs, withCookie, live_alter]
  refine ⟨?_, fun j n hj => ?_, fun d hd => (hlive _).2 ?_, fun j => ?_⟩
  · rw [hfs, withCookie]
    refine hw.counted.alter (fun _ => by rfl) hk (fun j hj => ?_) ?_
      (hw.counted.childCount _ node hk)
    · rw [cookies_cons, if_neg hj]
      rfl
    · rw [cookies_cons, if_pos rfl, ofNat_succ, ← hw.counted.refCount _ node hk]
  · obtain ⟨m, hm⟩ := (hlive j).1 ⟨n, hj⟩
    have := hw.used j m hm
    rw [cookies_cons, hkids]
    omega
  · rcases List.mem_cons.1 hd with rfl | hd
    exacts [⟨node, hk⟩, hw.live d hd]
  · have hroom := hw.room hfits j
    rw [cookies_cons, hkids]
    split_ifs <;> omega

theorem kids_withoutCookie (heap : Nodes) (k j : Ptr) :
    kids (withoutCookie heap k) j = kids heap j := by
  rw [withoutCookie, kids_alter fun _ => by rfl]

theorem live_withoutCookie :
    (∃ n, (withoutCookie heap k).get j = some n) ↔ ∃ n, heap.get j = some n := by
  rw [withoutCookie, live_alter]

theorem Inv.freed (hw : Inv w) (hc : c ∈ w.held) (hk : w.fs.heap.get c.index = some node) :
    Freed (cookies (w.held.erase c)) (withoutCookie w.fs.heap c.index)
      (xfsFreefs w.fs.heap.length (withoutCookie w.fs.heap c.index) c.index) := by
  have hrefs := cookies_erase w.held hc
  have hothers : ∀ j, j ≠ c.index → cookies (w.held.erase c) j = cookies w.held j := by
    intro j hj
    rw [← hrefs j, if_neg hj]
    rfl
  have hcounted : Counted (cookies (w.held.erase c)) (withoutCookie w.fs.heap c.index) := by
    refine hw.counted.alter (fun _ => by rfl) hk hothers ?_ (hw.counted.childCount _ node hk)
    have hsum := hrefs c.index
    rw [if_pos rfl] at hsum
    rw [hw.counted.refCount _ node hk, ← hsum, ofNat_succ_sub_one]
  have hroom : ∀ j, cookies (w.held.erase c) j < 2 ^ 32 := by
    intro j
    have := hrefs j
    have := (hw.fits j).1
    omega
  obtain ⟨node', hk'⟩ := live_withoutCookie.2 ⟨node, hk⟩
  refine xfsFreefs_spec hroom _ hcounted (fun j => ?_) hk' (fun j n hj hjc => ?_)
    (Nat.le_of_eq (Heap.length_alter _ _ _))
  · rw [kids_withoutCookie]
    exact (hw.fits j).2
  · obtain ⟨m, hm⟩ := live_withoutCookie.1 ⟨n, hj⟩
    rw [hothers j hjc, kids_withoutCookie]
    exact hw.used j m hm

theorem Inv.release (hw : Inv w) (hc : c ∈ w.held) (hk : w.fs.heap.get c.index = some node)
    (hfs : fs.heap = xfsFreefs w.fs.heap.length (withoutCookie w.fs.heap c.index) c.index) :
    Inv ⟨fs, w.held.erase c⟩ := by
  have hfreed := hw.freed hc hk
  rw [← hfs] at hfreed
  refine ⟨hfreed.counted, hfreed.used, fun d hd => ?_, fun j => ⟨?_, ?_⟩⟩
  · obtain ⟨n, hn⟩ := live_withoutCookie.2 (hw.live d (mem_of_mem_erase hd))
    exact hfreed.held d.index n hn fun hzero => cookies_eq_zero.1 hzero d hd rfl
  · have := cookies_erase w.held hc j
    have := (hw.fits j).1
    show cookies (w.held.erase c) j < 2 ^ 32
    omega
  · have hle := hfreed.kids_le j
    rw [kids_withoutCookie] at hle
    exact Nat.lt_of_le_of_lt hle (hw.fits j).2

theorem Inv.live_cookies (hw : Inv w) (hheld : Held w (host, call)) :
    ∀ fc ∈ call.cookies, ∃ node, w.fs.heap.get fc.index = some node :=
  fun fc hfc => hw.live _ (hheld fc hfc)

theorem Inv.step_cases (hw : Inv w) (hheld : Held w (host, call)) :
    Step host call w (HostFs.step w (host, call)).1 :=
  HostFs.step_cases host hw.counted.rooted (hw.live_cookies hheld)

theorem Inv.step (hw : Inv w) {i : Host × Call} (hheld : Held w i) (hfits : Fits w) :
    Inv (step w i).1 := by
  obtain ⟨host, call⟩ := i
  have hlive := hw.live_cookies hheld
  have hstep := hw.step_cases hheld
  generalize (HostFs.step w (host, call)).1 = w' at hstep ⊢
  cases hstep with
  | quiet ht => exact hw.quiet ht.heap
  | mount hh hl hm => exact hw.quiet (.inl hh)
  | @release fc node t hc hn href ht =>
    subst hc
    exact hw.release (hheld fc (mem_singleton_self _)) hn ht.heap
  | @gain fc t ht =>
    obtain ⟨hgain, -, -⟩ := ht
    generalize hheap : t.heap = heap at hgain
    have hdead : fc.index = host.new w.fs.heap → w.fs.heap.get fc.handle.index = none := fun hi =>
      (congrArg _ hi).trans (host.new_fresh _)
    cases hgain with
    | @root drv hm hi =>
      have hfs : t.heap = (fc.handle.index, ⟨none, 1, 0, false, drv.hostRoot⟩) ::
          recount (· + 1) w.fs.heap none := by
        rw [hheap, ← hi]
        rfl
      exact hw.enter hfits (hdead hi) (fun _ h => by cases h) hfs
    | @child dir name hd _ hdev hi =>
      have hfs : t.heap = (fc.handle.index, ⟨some dir.index, 1, 0, false, name⟩) ::
          recount (· + 1) w.fs.heap (some dir.index) := by
        rw [hheap, withChild, ← hi]
        rfl
      exact hw.enter hfits (hdead hi) (fun q h => Option.some.inj h ▸ hlive dir hd) hfs
    | @dup old node p ho hn hp hdev hi =>
      have hfs : t.heap = (fc.handle.index, ⟨some p, 1, 0, false, node.name⟩) ::
          recount (· + 1) w.fs.heap (some p) := by
        rw [hheap, withChild, ← hi]
        rfl
      exact hw.enter hfits (hdead hi)
        (fun q h => Option.some.inj h ▸ hw.counted.rooted.parent_live hn hp) hfs
    | @same dir hd hf =>
      obtain ⟨node, hn⟩ := hlive dir hd
      have hi : fc.index = dir.index := congrArg Handle.index hf
      exact hw.share hfits (hi ▸ hn) hheap
    | up hd hn hp hdev =>
      obtain ⟨node, hn⟩ := hw.counted.rooted.parent_live hn hp
      exact hw.share hfits hn hheap

theorem Inv.initial : Inv .initial := by
  have hdead : ∀ k n, World.initial.fs.heap.get k ≠ some n := by
    intro k n h
    cases h
  refine ⟨⟨trivial, fun k n hk => absurd hk (hdead k n), fun k n hk => absurd hk (hdead k n)⟩,
    fun k n hk => absurd hk (hdead k n), fun c hc => absurd hc not_mem_nil, fun k => ?_⟩
  exact ⟨Nat.two_pow_pos 32, Nat.two_pow_pos 32⟩

theorem Inv.run {calls : List (Host × Call)}
    (h : Along HostFs.step (fun w i => Held w i ∧ Fits w) .initial calls) :
    Inv (Lib.run HostFs.step .initial calls) :=
  run_inv (P := Inv) (fun _ _ hw hi => hw.step hi.1 hi.2) calls .initial .initial h

/-! ## A visit -/

/-- A drive is mounted, and the cookie of its root fetched. -/
def mountRoot : List (Host × Call) :=
  [(obliging, .init 2 [] ['/', 'r'] false 0 0 0), (obliging, .root 2)]

/-- The cookie of the node at address `k`. -/
def cookieAt (k : Ptr) : XfsCookie := ⟨0, 2, 0, k⟩

/-- A file is looked up, its cookie doubled, its directory looked up from it, and all is
    released. -/
def visit : List (Host × Call) :=
  mountRoot ++
    [(obliging, .lookup (cookieAt 0) ['a']), (obliging, .dupcookie (cookieAt 1)),
      (obliging, .lookup (cookieAt 2) ['.', '.']), (obliging, .release (cookieAt 0)),
      (obliging, .release (cookieAt 1)), (obliging, .release (cookieAt 0)),
      (obliging, .release (cookieAt 2))]

/-! ## Counters that wrap round -/

/-- The world with `n + 1` cookies on the root. -/
def crowded (n : ℕ) : World :=
  ⟨⟨(run step .initial mountRoot).fs.mounts,
    [(0, ⟨none, BitVec.ofNat 32 (n + 1), 0, false, ['/', 'r', '/']⟩)], []⟩,
    List.replicate (n + 1) ⟨2, 0⟩⟩

theorem crowded_zero : run step .initial mountRoot = crowded 0 := by
  decide +kernel

theorem step_crowded (n : ℕ) :
    (step (crowded n) (obliging, .lookup (cookieAt 0) ['.'])).1 = crowded (n + 1) := by
  have hcount : BitVec.ofNat 32 (n + 1 + 1) = BitVec.ofNat 32 (n + 1) + 1 := ofNat_succ (n + 1)
  unfold crowded
  rw [hcount, replicate_succ]
  rfl

theorem run_crowded (n : ℕ) : ∀ m,
    run step (crowded m) (List.replicate n (obliging, .lookup (cookieAt 0) ['.'])) =
      crowded (m + n) ∧
      Along step Held (crowded m) (List.replicate n (obliging, .lookup (cookieAt 0) ['.'])) := by
  induction n with
  | zero => exact fun m => ⟨rfl, trivial⟩
  | succ n ih =>
    intro m
    obtain ⟨hrun, halong⟩ := ih (m + 1)
    rw [replicate_succ, run, Along, step_crowded, hrun, Nat.add_right_comm, Nat.add_assoc]
    refine ⟨rfl, ?_, halong⟩
    rintro fc hfc
    cases List.mem_singleton.1 hfc
    exact List.mem_replicate.2 ⟨Nat.succ_ne_zero m, rfl⟩

theorem step_fs (fs : State) (held held' : List Handle) (i : Host × Call) :
    (step ⟨fs, held⟩ i).1.fs = (step ⟨fs, held'⟩ i).1.fs := by
  unfold step
  cases dispatch i.1 i.2 fs with
  | ok r t => cases r <;> rfl
  | error e t => rfl

theorem run_fs (calls : List (Host × Call)) : ∀ (fs : State) (held held' : List Handle),
    (run step ⟨fs, held⟩ calls).fs = (run step ⟨fs, held'⟩ calls).fs := by
  induction calls with
  | nil => exact fun _ _ _ => rfl
  | cons i calls ih =>
    intro fs held held'
    have hstep := step_fs fs held held' i
    rw [run, run]
    generalize (step ⟨fs, held⟩ i).1 = w at hstep ⊢
    generalize (step ⟨fs, held'⟩ i).1 = w' at hstep ⊢
    obtain ⟨fs₁, held1⟩ := w
    obtain ⟨fs₂, held2⟩ := w'
    cases hstep
    exact ih fs₁ held1 held2

/-- A root whose counters are both zero. -/
def emptyRoot : State :=
  ⟨(run step .initial mountRoot).fs.mounts, [(0, ⟨none, 0, 0, false, ['/', 'r', '/']⟩)], []⟩

/-- A cookie and its release. -/
def comeAndGo : List (Host × Call) :=
  [(obliging, .lookup (cookieAt 0) ['a']), (obliging, .release (cookieAt 1))]

theorem run_comeAndGo {held : List Handle} (hheld : (⟨2, 0⟩ : Handle) ∈ held) :
    Along step Held ⟨emptyRoot, held⟩ comeAndGo ∧
    (run step ⟨emptyRoot, held⟩ comeAndGo).held = held ∧
      (run step ⟨emptyRoot, held⟩ comeAndGo).fs.heap = [] := by
  refine ⟨⟨?_, ?_, trivial⟩, rfl, ?_⟩
  · rintro fc hfc
    cases List.mem_singleton.1 hfc
    exact hheld
  · rintro fc hfc
    cases List.mem_singleton.1 hfc
    exact mem_cons_self
  · rw [run_fs comeAndGo emptyRoot held []]
    decide +kernel

/-- As many cookies as make the counter of the root zero, then a file comes and goes. -/
def crowd : List (Host × Call) :=
  mountRoot ++
    (List.replicate (2 ^ 32 - 1) (obliging, .lookup (cookieAt 0) ['.']) ++ comeAndGo)

/-! ## The life cycle -/

/-- The counters are the counts, a node is live exactly while one of its counts is not zero, and
    what is held is live. -/
theorem cookie_life_cycle (calls : List (Host × Call))
    (h : Along step (fun w i => Held w i ∧ Fits w) .initial calls) :
    (∀ k n, (run step .initial calls).fs.heap.get k = some n →
      n.refCount.toNat = cookies (run step .initial calls).held k ∧
      n.childCount.toNat = kids (run step .initial calls).fs.heap k) ∧
    (∀ k, (run step .initial calls).fs.heap.get k = none ↔
      cookies (run step .initial calls).held k = 0 ∧
      kids (run step .initial calls).fs.heap k = 0) ∧
    (∀ c ∈ (run step .initial calls).held,
      ∃ n, (run step .initial calls).fs.heap.get c.index = some n) ∧
    ((run step .initial calls).held = [] → (run step .initial calls).fs.heap = []) := by
  have hw := Inv.run h
  generalize run step .initial calls = w at hw
  refine ⟨fun k n hk => ⟨?_, ?_⟩, fun k => ⟨fun hk => ?_, fun hzero => ?_⟩, hw.live,
    fun hheld => ?_⟩
  · rw [hw.counted.refCount k n hk, BitVec.toNat_ofNat, Nat.mod_eq_of_lt (hw.fits k).1]
  · rw [hw.counted.childCount k n hk, BitVec.toNat_ofNat, Nat.mod_eq_of_lt (hw.fits k).2]
  · exact ⟨hw.cookies_of_dead hk, hw.counted.rooted.children_of_dead hk⟩
  · cases hk : w.fs.heap.get k with
    | none => rfl
    | some n =>
      have := hw.used k n hk
      omega
  · -- the newest node would be a leaf without cookies
    by_contra hne
    obtain ⟨c, hc, hleaf⟩ := hw.counted.rooted.exists_leaf hne
    have hused := hw.used c.1 c.2 (get_of_mem hw.counted.rooted hc)
    rw [hheld] at hused
    exact hused.elim (fun h => h rfl) fun h => h hleaf

theorem visit_frees_all :
    (run step .initial visit).held = [] ∧ (run step .initial visit).fs.heap = [] :=
  ⟨by decide +kernel, (cookie_life_cycle visit (by decide +kernel)).2.2.2 (by decide +kernel)⟩

/-- Every call is made on a cookie that is held, and in the end all cookies that are held designate
    a node that is gone. -/
theorem wrapped_cookie_dangles : Along step Held .initial crowd ∧
      ∃ c ∈ (run step .initial crowd).held,
        (run step .initial crowd).fs.heap.get c.index = none := by
  obtain ⟨hrun, halong⟩ := run_crowded (2 ^ 32 - 1) 0
  have hfull : crowded (0 + (2 ^ 32 - 1)) = ⟨emptyRoot, .replicate (2 ^ 32) ⟨2, 0⟩⟩ := rfl
  have hmem : (⟨2, 0⟩ : Handle) ∈ List.replicate (2 ^ 32) (⟨2, 0⟩ : Handle) :=
    List.mem_replicate.2 ⟨Nat.pos_iff_ne_zero.1 (Nat.two_pow_pos 32), rfl⟩
  obtain ⟨hvisit, hheld, hheap⟩ := run_comeAndGo hmem
  have hmount : Along step Held .initial mountRoot := by decide +kernel
  rw [hfull] at hrun
  rw [crowd, along_append, along_append, run_append, run_append, crowded_zero, hrun, hheld, hheap]
  exact ⟨⟨hmount, halong, hvisit⟩, ⟨2, 0⟩, hmem, rfl⟩

end Aranym.HostFs
