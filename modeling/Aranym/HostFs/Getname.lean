/-
  Names of directories relative to others.

  `xfs_getname` takes one directory for a descendant of another if the path of
  the one is the beginning of the path of the other, as a string.  But a name
  that begins with another one (`ab` beside `a`) is not below it, and names that
  end in a backslash lose it where a path goes on behind them.
-/
import Aranym.HostFs.Chains

namespace Aranym.HostFs

open List

open Lib

/-- The names of the nodes as the host has them, the innermost first. -/
def hostNames (host : Host) (drv : Option ExtDrive) (root : Str) (ns : List Str) : List Str :=
  (finals host drv root ns).filter (· ≠ [])

/-- Without one trailing slash. -/
def stem (path : Str) : Str := if path.getLast? = some '/' then path.dropLast else path

/-- `\` for every `/`. -/
def dosPath (path : Str) : Str := path.map fun c => if c = '/' then '\\' else c

/-- The name of `dir` relative to `base`, where it is below it, and else its path.  The root of a
    drive, whose path ends in a slash, is `\` relative to itself. -/
def relativeName (root : Str) (base dir : List Str) : Str :=
  if base <:+ dir then
    if base = dir then (render root dir).drop (stem (render root dir)).length
    else render ['/'] (dir.take (dir.length - base.length))
  else render root dir

/-- The answer for a name in a buffer of `size` bytes. -/
def nameAnswer (size : U16) (name : Str) : Except Fault Str :=
  if (name.length + 1 : Int) ≤ size.toInt then .ok name else .error (.tos .erange)

/-- The result of a call. -/
def answerOf {α : Type} (r : EStateM.Result Fault State α) : Except Fault α :=
  match r with
  | .ok a _ => .ok a
  | .error e _ => .error e

/-! ## Paths -/

theorem render_filter (root : Str) (ns : List Str) :
    render root (ns.filter (· ≠ [])) = render root ns := by
  induction ns with
  | nil => rfl
  | cons n ns ih =>
    by_cases hn : n = []
    · rw [filter_cons_of_neg (by simpa using hn), ih, render, if_pos hn]
    · rw [filter_cons_of_pos (by simpa using hn), render_cons hn, render_cons hn, ih]

theorem trim_eq_stem {path : Str} (h : path.getLast? ≠ some '\\') : trim path = stem path := by
  unfold trim stem
  simp only [h, false_or]

variable {root : Str} {base extra : List Str}

theorem render_append (hroot : render root base ≠ []) (hextra : extra ≠ [])
    (hne : ∀ n ∈ extra, n ≠ []) :
    render root (extra ++ base) = trim (render root base) ++ render ['/'] extra := by
  induction extra with
  | nil => exact absurd rfl hextra
  | cons n extra ih =>
    have hn := hne n mem_cons_self
    rw [cons_append, render_cons hn, render_cons hn]
    by_cases hlast : extra = []
    · rw [hlast, nil_append, joined_of_ne_nil hroot, append_assoc]
      rfl
    · have hrest : render ['/'] extra ≠ [] := by
        obtain ⟨m, ms, rfl⟩ := exists_cons_of_ne_nil hlast
        rw [render_cons (hne m (by simp))]
        simp [hne m (by simp)]
      rw [ih hlast fun m hm => hne m (mem_cons_of_mem _ hm), joined_of_ne_nil (by simp [hrest]),
        joined_of_ne_nil hrest, trim_append _ hrest]
      simp only [append_assoc]

theorem render_slash (extra : List Str) : ∃ rest, render ['/'] extra = '/' :: rest := by
  have hhead :=
    (render_head ⟨by decide, by decide⟩ extra : _ ∧ _ ∧ (render ['/'] extra).head? = _).2.2
  exact List.head?_eq_some_iff.1 hhead

theorem length_dosPath (path : Str) : (dosPath path).length = path.length := length_map _

theorem stem_append (path : Str) : path = stem path ++ path.drop (stem path).length := by
  have h : stem path <+: path := by
    unfold stem
    split_ifs
    · exact dropLast_prefix path
    · exact prefix_rfl
  exact (List.prefix_iff_eq_append.1 h).symm

theorem hostPath_eq (host : Host) (drv : Option ExtDrive) (root : Str) (ns : List Str) :
    render root (finals host drv root ((none : Option Str).getD [] :: ns)) =
      render root (hostNames host drv root ns) := by
  rw [hostNames, render_filter, finals]
  rfl

/-! ## One call -/

/-- What is left of the path of `dir` without that of `base`. -/
def cutName (base dir : Str) : Str := if stem base <+: dir then dir.drop (stem base).length else dir

variable {host : Host} {s : State} {relto dir : XfsCookie} {drv : ExtDrive} {ns₁ ns₂ : List Str}

/-- The answer in terms of the two host paths alone. -/
theorem xfsGetname_eq (hr : Rooted XfsFsFile.parent s.heap)
    (h1 : Chain s.heap relto.index drv.hostRoot ns₁) (h2 : Chain s.heap dir.index drv.hostRoot ns₂)
    (hdrv1 : s.mounts.lookup relto.dev = some drv) (hdrv2 : s.mounts.lookup dir.dev = some drv)
    (size : U16) : answerOf (xfsGetname host relto dir size s) =
      let name := unx2dos size.toInt
        (cutName (render drv.hostRoot (hostNames host (some drv) drv.hostRoot ns₁))
          (render drv.hostRoot (hostNames host (some drv) drv.hostRoot ns₂)))
      if size.toInt = name.length then .error (.tos .erange) else .ok name := by
  have hp1 := pathname_eq h1 (h1.length_lt hr) host none
  have hp2 := fun log => pathname_eq (s := { s with log := log }) h2 (h2.length_lt hr) host none
  rw [hdrv1] at hp1
  simp only [hdrv2] at hp2
  rw [hostPath_eq] at hp1
  simp only [hostPath_eq] at hp2
  unfold xfsGetname
  rw [bind_of_ok _ hp1, bind_of_ok _ (hp2 _)]
  generalize render drv.hostRoot (hostNames host (some drv) drv.hostRoot ns₁) = base
  generalize render drv.hostRoot (hostNames host (some drv) drv.hostRoot ns₂) = path
  have hcut : (if (stem base).isPrefixOf path = true then path.drop (stem base).length else path) =
      cutName base path := by
    unfold cutName
    simp only [ isPrefixOf_iff_prefix]
  rw [← hcut]
  exact apply_ite (fun x : Xfs Str => answerOf (x _)) _ _ _

/-- Where the beginning of a path decides rightly, or the buffer is too small anyway. -/
def Distinct (root : Str) (base dir : List Str) (size : U16) : Prop :=
  0 ≤ size.toInt ∧
    (base <:+ dir → base ≠ dir → (render root base).getLast? = some '\\' →
      size.toInt ≤ (relativeName root base dir).length) ∧
    (¬ base <:+ dir → stem (render root base) <+: render root dir →
      size.toInt + (stem (render root base)).length ≤ (render root dir).length)

theorem xfsGetname_of_nonneg {size : U16} (hsize : 0 ≤ size.toInt) (name : Str) :
    (if size.toInt = (unx2dos size.toInt name).length then .error (.tos .erange)
      else .ok (unx2dos size.toInt name) : Except Fault Str) = nameAnswer size (dosPath name) := by
  have hlen : (unx2dos size.toInt name).length = min size.toInt.toNat name.length := by
    rw [unx2dos, length_map, length_take]
  rw [hlen, nameAnswer, length_dosPath]
  by_cases hfit : (name.length + 1 : Int) ≤ size.toInt
  · rw [if_pos hfit, if_neg (by omega), unx2dos, take_of_length_le (by omega), dosPath]
  · rw [if_neg hfit, if_pos (by omega)]

/-- Two names get the same answer only if they are equal or both too long. -/
theorem nameAnswer_eq_iff {size : U16} {name name' : Str} :
    nameAnswer size name = nameAnswer size name' ↔
      name = name' ∨ size.toInt ≤ name.length ∧ size.toInt ≤ name'.length := by
  unfold nameAnswer
  by_cases h : (name.length + 1 : Int) ≤ size.toInt
  · rw [if_pos h]
    by_cases h' : (name'.length + 1 : Int) ≤ size.toInt
    · rw [if_pos h', Except.ok.injEq]
      exact ⟨.inl, fun h => h.resolve_right (by omega)⟩
    · rw [if_neg h']
      refine iff_of_false (by simp) ?_
      rintro (rfl | ⟨h1, -⟩)
      · exact h' h
      · omega
  · rw [if_neg h]
    by_cases h' : (name'.length + 1 : Int) ≤ size.toInt
    · rw [if_pos h']
      refine iff_of_false (by simp) ?_
      rintro (rfl | ⟨-, h2⟩)
      · exact h h'
      · omega
    · rw [if_neg h']
      exact iff_of_true rfl (.inr ⟨by omega, by omega⟩)

/-- Below `base`, the beginning of the path is cut off, unless it ends in a backslash. -/
theorem cutName_of_below (hroot : RootOk root) (hextra : extra ≠ []) (hne : ∀ n ∈ extra, n ≠ []) :
    cutName (render root base) (render root (extra ++ base)) =
      if (render root base).getLast? = some '\\' then render root (extra ++ base)
      else render ['/'] extra := by
  have happ := render_append (render_head hroot base).1 hextra hne
  obtain ⟨rest, hrest⟩ := render_slash extra
  rw [cutName, happ, hrest]
  by_cases hback : (render root base).getLast? = some '\\'
  · have hbase : render root base = trim (render root base) ++ ['\\'] := by
      rw [trim, if_pos (.inl hback)]
      exact (dropLast_append_getLast? _ hback).symm
    have hstem : stem (render root base) = render root base := by
      rw [stem, hback, if_neg (by decide)]
    rw [if_pos hback, if_neg]
    intro hpre
    have hpre' : trim (render root base) ++ ['\\'] <+: trim (render root base) ++ '/' :: rest := by
      rw [← hbase]
      rwa [hstem] at hpre
    have hslash := (List.cons_prefix_cons.1 ((prefix_append_right_inj _).1 hpre')).1
    exact absurd hslash (by decide)
  · rw [if_neg hback, ← trim_eq_stem hback, if_pos (prefix_append _ _), drop_left]

theorem length_stem (path : Str) : path.length ≤ (stem path).length + 1 := by
  unfold stem
  split_ifs
  · rw [length_dropLast]
    omega
  · omega

theorem stem_ne_nil (hroot : RootOk root) (hbase : base ≠ [])
    (hne : ∀ n ∈ base, n ≠ []) : 0 < (stem (render root base)).length := by
  obtain ⟨n, ns, rfl⟩ := exists_cons_of_ne_nil hbase
  have hn := List.length_pos_iff.2 (hne n mem_cons_self)
  have hstem := length_stem (render root (n :: ns))
  rw [render_cons (hne n mem_cons_self), joined_of_ne_nil (render_head hroot ns).1] at hstem ⊢
  simp only [length_append, length_cons, length_nil] at hstem ⊢
  omega

/-- Below `relto` the name is right, unless it fits and the path of `relto` ends with a backslash.
    -/
theorem answer_below_iff (hroot : RootOk root) (base : List Str) (hne : ∀ n ∈ extra, n ≠ [])
    (size : Int) :
    (dosPath (cutName (render root base) (render root (extra ++ base))) =
        dosPath (relativeName root base (extra ++ base)) ∨
      size ≤ (cutName (render root base) (render root (extra ++ base))).length ∧
        size ≤ (relativeName root base (extra ++ base)).length) ↔
    (base ≠ extra ++ base → (render root base).getLast? = some '\\' →
      size ≤ (relativeName root base (extra ++ base)).length) := by
  have hbelow : base <:+ extra ++ base := suffix_append extra base
  by_cases hextra : extra = []
  · have hstem : stem (render root base) <+: render root base := ⟨_, (stem_append _).symm⟩
    rw [hextra, nil_append]
    refine iff_of_true (.inl ?_) fun h => absurd rfl h
    rw [relativeName, if_pos suffix_rfl, if_pos rfl, cutName, if_pos hstem]
  · have hdiff : base ≠ extra ++ base := fun h => hextra (List.self_eq_append_left.1 h)
    have hrel : relativeName root base (extra ++ base) = render ['/'] extra := by
      rw [relativeName, if_pos hbelow, if_neg hdiff, length_append, Nat.add_sub_cancel, take_left]
    rw [imp_iff_right hdiff, hrel, cutName_of_below hroot hextra hne]
    by_cases hback : (render root base).getLast? = some '\\'
    · obtain ⟨hne', hback', -⟩ := render_head hroot base
      have htrim : 0 < (trim (render root base)).length := by
        rw [trim, if_pos (.inl hback), length_dropLast]
        have hlast := dropLast_append_getLast? _ hback
        cases hd : (render root base).dropLast with
        | nil =>
          rw [hd] at hlast
          exact absurd hlast.symm hback'
        | cons c cs =>
          rw [← length_dropLast, hd]
          simp
      have happ := congrArg List.length (render_append hne' hextra hne)
      rw [length_append] at happ
      rw [if_pos hback, imp_iff_right hback]
      constructor
      · rintro (h | h)
        · have hlen := congrArg List.length h
          rw [length_dosPath, length_dosPath] at hlen
          omega
        · exact h.2
      · intro h
        exact .inr ⟨by omega, h⟩
    · rw [if_neg hback]
      exact iff_of_true (.inl rfl) fun h => absurd h hback

theorem answer_beside_iff (hroot : RootOk root) {names : List Str}
    (hbelow : ¬ base <:+ names) (hne : ∀ n ∈ base, n ≠ []) (size : Int) :
    (dosPath (cutName (render root base) (render root names)) =
      dosPath (relativeName root base names) ∨
      size ≤ (cutName (render root base) (render root names)).length ∧
        size ≤ (relativeName root base names).length) ↔
        (stem (render root base) <+: render root names →
      size + (stem (render root base)).length ≤ (render root names).length) := by
  have hrel : relativeName root base names = render root names := if_neg hbelow
  have hbase : base ≠ [] := by
    rintro rfl
    exact hbelow nil_suffix
  have hpos := stem_ne_nil hroot hbase hne
  rw [hrel, cutName]
  by_cases hpre : stem (render root base) <+: render root names
  · have hle := hpre.length_le
    rw [if_pos hpre, imp_iff_right hpre, length_drop]
    constructor
    · rintro (h | h)
      · have hlen := congrArg List.length h
        rw [length_dosPath, length_dosPath, length_drop] at hlen
        omega
      · omega
    · intro h
      exact .inr (by omega)
  · rw [if_neg hpre]
    exact iff_of_true (.inl rfl) fun h => absurd h hpre

/-- `xfs_getname` gives the name of `dir` relative to `relto`, or its path, exactly under these
    conditions.  The two paths have to fit in the buffers for them. -/
theorem getname_iff (host : Host) (s : State) (relto dir : XfsCookie) (size : U16) (drv : ExtDrive)
    (ns₁ ns₂ : List Str) (hr : Rooted XfsFsFile.parent s.heap) (hroot : RootOk drv.hostRoot)
    (h₁ : Chain s.heap relto.index drv.hostRoot ns₁) (h₂ : Chain s.heap dir.index drv.hostRoot ns₂)
    (hdrv₁ : s.mounts.lookup relto.dev = some drv) (hdrv₂ : s.mounts.lookup dir.dev = some drv)
    (_hfits₁ : InBuffer host s (relto, none)) (_hfits₂ : InBuffer host s (dir, none)) :
    answerOf (xfsGetname host relto dir size s) =
        nameAnswer size (dosPath (relativeName drv.hostRoot
          (hostNames host (some drv) drv.hostRoot ns₁)
            (hostNames host (some drv) drv.hostRoot ns₂))) ↔
      Distinct drv.hostRoot (hostNames host (some drv) drv.hostRoot ns₁)
        (hostNames host (some drv) drv.hostRoot ns₂) size := by
  rw [xfsGetname_eq hr h₁ h₂ hdrv₁ hdrv₂]
  have hne : ∀ ns, ∀ n ∈ hostNames host (some drv) drv.hostRoot ns, n ≠ [] := by
    intro ns n hn
    simpa using (List.mem_filter.1 hn).2
  have hne1 := hne ns₁
  have hne2 := hne ns₂
  generalize hostNames host (some drv) drv.hostRoot ns₁ = base at hne1 ⊢
  generalize hostNames host (some drv) drv.hostRoot ns₂ = names at hne2 ⊢
  unfold Distinct
  by_cases hsize : 0 ≤ size.toInt
  · rw [and_iff_right hsize]
    rw [xfsGetname_of_nonneg hsize, nameAnswer_eq_iff, length_dosPath, length_dosPath]
    by_cases hbelow : base <:+ names
    · obtain ⟨extra, rfl⟩ := hbelow
      have hextra : ∀ n ∈ extra, n ≠ [] := fun n hn => hne2 n (mem_append_left _ hn)
      rw [answer_below_iff hroot base hextra, imp_iff_right (suffix_append extra base)]
      exact ⟨fun h => ⟨h, fun hnot => absurd (suffix_append extra base) hnot⟩, fun h => h.1⟩
    · rw [answer_beside_iff hroot hbelow hne1, imp_iff_right hbelow]
      exact ⟨fun h => ⟨fun hb => absurd hb hbelow, h⟩, fun h => h.2⟩
  · refine iff_of_false ?_ fun h => hsize h.1
    have hnil : ∀ name, unx2dos size.toInt name = [] := by
      intro name
      rw [unx2dos, Int.toNat_of_nonpos (by omega)]
      rfl
    dsimp only
    rw [hnil, if_neg (by simp; omega), nameAnswer, if_neg (by omega)]
    exact fun h => by cases h

/-- A drive with the directories `a` and `ab`. -/
def twoDirs : State :=
  ⟨[(2, ⟨2, 0, 0, 0, ['/', 'r', '/'], ['C', ':', '/'], false⟩)],
    [(2, ⟨some 0, 1, 0, false, ['a', 'b']⟩), (1, ⟨some 0, 1, 0, false, ['a']⟩),
      (0, ⟨none, 1, 2, false, ['/', 'r', '/']⟩)], []⟩

theorem twoDirs_rooted : Rooted XfsFsFile.parent twoDirs.heap := by
  refine ⟨rfl, ?_, rfl, ?_, rfl, ?_, trivial⟩
  · rintro p ⟨⟩
    exact ⟨_, rfl⟩
  · rintro p ⟨⟩
    exact ⟨_, rfl⟩
  · rintro p ⟨⟩

theorem twoDirs_root : Chain twoDirs.heap 0 ['/', 'r', '/'] [] := by
  have hk : twoDirs.heap.get 0 = some ⟨none, 1, 2, false, ['/', 'r', '/']⟩ := rfl
  exact .top hk rfl

theorem twoDirs_ab : Chain twoDirs.heap 2 ['/', 'r', '/'] [['a', 'b']] := by
  have hk : twoDirs.heap.get 2 = some ⟨some 0, 1, 0, false, ['a', 'b']⟩ := rfl
  exact .child hk rfl twoDirs_root

theorem name_below_root : answerOf (xfsGetname obliging (cookieAt 0) (cookieAt 2) 10 twoDirs) =
      nameAnswer 10 (dosPath (relativeName ['/', 'r', '/'] [] [['a', 'b']])) := by
  refine (getname_iff obliging twoDirs (cookieAt 0) (cookieAt 2) 10
    ⟨2, 0, 0, 0, ['/', 'r', '/'], ['C', ':', '/'], false⟩ [] [['a', 'b']] twoDirs_rooted
    ⟨by decide, by decide⟩ twoDirs_root twoDirs_ab rfl rfl (by decide) (by decide)).2 ?_
  exact ⟨by decide, fun _ _ h => absurd h (by decide), fun h => absurd nil_suffix h⟩

/-- `/r/ab` is not below `/r/a`, but its name is given as `b`. -/
theorem sibling_taken_for_descendant :
    answerOf (xfsGetname obliging (cookieAt 1) (cookieAt 2) 10 twoDirs) = .ok ['b'] ∧
      nameAnswer 10 (dosPath (relativeName ['/', 'r', '/'] [['a']] [['a', 'b']])) =
        .ok ['\\', 'r', '\\', 'a', 'b'] :=
  ⟨rfl, rfl⟩

end Aranym.HostFs
