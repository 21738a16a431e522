/-
  Host paths read as lists of components.

  A path that `cookie2Pathname` builds is the root of the drive followed by
  one name for every node.  `below` and `Within` read the names of the nodes
  the same way: they count levels without asking the host.
-/
import Aranym.HostFs.ShortNames
import Aranym.Lib.Paths

namespace Aranym.HostFs

open List
open Char (toLower)

open Lib

/-- A part of a path. -/
def part (c : Str) : Segment Str :=
  if c = [] ∨ c = ['.'] then .here else if c = ['.', '.'] then .up else .name c

/-- The parts of a path. -/
def parts (s : Str) : List (Segment Str) := (s.splitOnP (· == '/')).map part

/-- The path of a text. -/
def pathOf (s : Str) : FilePath Str := ⟨s.head? = some '/', parts s⟩

/-! ## Components of joined names -/

theorem parts_append (a b : Str) : parts (a ++ '/' :: b) = parts a ++ parts b := by
  rw [parts, splitOnP_append_cons a b (by rfl), map_append]
  rfl

theorem parts_of_notMem {s : Str} (hs : '/' ∉ s) : parts s = [part s] := by
  rw [parts, splitOnP_eq_singleton]
  · rfl
  · intro c hc
    exact beq_false_of_ne (by rintro rfl; exact hs hc)

variable {n : Str}

theorem trim_append (a : Str) (hn : n ≠ []) : trim (a ++ n) = a ++ trim n := by
  have hlast : (a ++ n).getLast? = n.getLast? := by
    rw [List.getLast?_append, List.getLast?_eq_some_getLast hn]
    rfl
  unfold trim
  rw [hlast]
  split_ifs
  · rw [dropLast_append_of_ne_nil hn]
  · rfl

theorem joined_of_ne_nil {buf : Str} (hb : buf ≠ []) : joined buf = trim buf ++ ['/'] :=
  if_neg hb

/-- Taking off the separator and putting one back keeps a path absolute, or relative. -/
theorem head_trim_append {buf : Str} (hne : buf ≠ []) (hback : buf ≠ ['\\']) (n : Str) :
    (trim buf ++ '/' :: n).head? = buf.head? := by
  unfold trim
  match buf, hne with
  | [c], _ =>
    by_cases hc : c = '/'
    · subst hc
      rfl
    · have hc' : c ≠ '\\' := fun h => hback (by rw [h])
      simp [hc, hc']
  | c :: d :: buf, _ =>
    split_ifs
    all_goals rfl

/-! ## Rendered names -/

/-- The path of the names, the innermost first; a node without a name adds nothing. -/
def render (root : Str) : List Str → Str
  | [] => root
  | n :: ns => if n = [] then render root ns else joined (render root ns) ++ n

/-- The components of the names where the path goes on behind them. -/
def below : List Str → List (Segment Str)
  | [] => []
  | n :: ns => if n = [] then below ns else below ns ++ parts (trim n)

/-- The names never climb above the root, neither these nor those of a directory on the way. -/
def Within : List Str → Prop
  | [] => True
  | n :: ns => Within ns ∧ (n ≠ [] → (walk 0 (below ns ++ parts n)).isSome)

instance decidableWithin : ∀ ns, Decidable (Within ns)
  | [] => .isTrue trivial
  | n :: ns =>
    have := decidableWithin ns
    inferInstanceAs (Decidable (Within ns ∧ (n ≠ [] → (walk 0 (below ns ++ parts n)).isSome)))

variable {root : Str}

theorem render_cons (hn : n ≠ []) (ns : List Str) :
    render root (n :: ns) = joined (render root ns) ++ n :=
  if_neg hn

theorem below_cons (hn : n ≠ []) (ns : List Str) : below (n :: ns) = below ns ++ parts (trim n) :=
  if_neg hn

section

variable (hr : RootOk root)
include hr

theorem render_head (ns : List Str) :
    render root ns ≠ [] ∧ render root ns ≠ ['\\'] ∧ (render root ns).head? = root.head? := by
  induction ns with
  | nil =>
    refine ⟨hr.1, ?_, rfl⟩
    rintro (rfl : root = _)
    exact hr.2 (mem_singleton_self _)
  | cons n ns ih =>
    by_cases hn : n = []
    · rwa [render, if_pos hn]
    · obtain ⟨hne, hback, hhead⟩ := ih
      rw [render_cons hn, joined_of_ne_nil hne, append_assoc, singleton_append]
      refine ⟨by simp, ?_, ?_⟩
      · intro h
        have := congrArg List.length h
        have := List.length_pos_iff.2 hn
        simp at *
        omega
      · rw [← hhead]
        exact head_trim_append hne hback n

theorem parts_trim_render (ns : List Str) :
    parts (trim (render root ns)) = parts (trim root) ++ below ns := by
  induction ns with
  | nil => exact (append_nil _).symm
  | cons n ns ih =>
    by_cases hn : n = []
    · rwa [render, if_pos hn, below, if_pos hn]
    · rw [render_cons hn, below_cons hn, trim_append _ hn, joined_of_ne_nil (render_head hr ns).1,
        append_assoc, singleton_append, parts_append, ih, append_assoc]

theorem resolve_trim (absolute : Bool) :
    FilePath.resolve ⟨absolute, parts root⟩ = FilePath.resolve ⟨absolute, parts (trim root)⟩ := by
  unfold trim
  split_ifs with hlast
  · have hslash : root.getLast? = some '/' := by
      refine hlast.resolve_left fun h => hr.2 ?_
      exact List.mem_of_getLast? h
    have heq : root = root.dropLast ++ '/' :: [] := by
      have := dropLast_append_getLast? '/' hslash
      exact this.symm
    conv_lhs => rw [heq, parts_append]
    exact resolve_append_here absolute _
  · rfl

theorem inside_of_walk {p : Str} {ps : List (Segment Str)} (hhead : p.head? = root.head?)
    (hp : parts p = parts (trim root) ++ ps)
    (hw : (walk 0 ps).isSome) : (pathOf root).Inside (pathOf p) := by
  have hin := inside_append (decide (root.head? = some '/')) (parts (trim root)) hw
  refine ⟨by simp [pathOf, hhead], ?_⟩
  have hres : (pathOf p).resolve =
      FilePath.resolve ⟨decide (root.head? = some '/'), parts (trim root) ++ ps⟩ := by
    simp [pathOf, hhead, hp]
  rw [hres]
  have hroot : (pathOf root).resolve =
      FilePath.resolve ⟨decide (root.head? = some '/'), parts (trim root)⟩ := resolve_trim hr _
  rw [hroot]
  exact hin.2

theorem inside_render {ns : List Str} (h : Within ns) :
    (pathOf root).Inside (pathOf (render root ns)) := by
  induction ns with
  | nil => exact ⟨rfl, prefix_rfl⟩
  | cons n ns ih =>
    by_cases hn : n = []
    · rw [render, if_pos hn]
      exact ih h.1
    · refine inside_of_walk hr (render_head hr _).2.2 ?_ (h.2 hn)
      rw [render_cons hn, joined_of_ne_nil (render_head hr ns).1, append_assoc,
        singleton_append, parts_append, parts_trim_render hr, append_assoc]

theorem inside_joined {ns : List Str}
    (h : (walk 0 (below ns)).isSome) : (pathOf root).Inside (pathOf (joined (render root ns))) := by
  obtain ⟨hne, hback, hhead⟩ := render_head hr ns
  have hw : (walk 0 (below ns ++ parts [])).isSome := by
    rw [walk_append]
    obtain ⟨m, hm⟩ := Option.isSome_iff_exists.1 h
    rw [hm]
    rfl
  refine inside_of_walk hr ?_ ?_ hw
  · rw [joined_of_ne_nil hne, head_trim_append hne hback [], hhead]
  · rw [joined_of_ne_nil hne, parts_append, parts_trim_render hr, append_assoc]

end

/-! ## Names that stand for others -/

/-- `f` leads at least as deep as `n`, at the end of a path and within it. -/
structure Stands (n f : Str) : Prop where
  last : ∀ k j, walk k (parts n) = some j → ∃ j', j ≤ j' ∧ walk k (parts f) = some j'
  inner : ∀ k j, walk k (parts (trim n)) = some j → ∃ j', j ≤ j' ∧ walk k (parts (trim f)) = some j'

theorem toLower_slash (c : Char) : c.toLower = '/' ↔ c = '/' := toLower_eq_iff (by decide)

theorem toLower_dot (c : Char) : c.toLower = '.' ↔ c = '.' := toLower_eq_iff (by decide)

theorem toLower_backslash (c : Char) : c.toLower = '\\' ↔ c = '\\' :=
  toLower_eq_iff (by decide)

theorem part_toLower (c : Str) : part (c.map toLower) = (part c).map (List.map toLower) := by
  match c with
  | [] => rfl
  | [a] =>
    by_cases ha : a = '.'
    · subst ha
      rfl
    · simp [part, Segment.map, toLower_dot, ha]
  | [a, b] =>
    by_cases hab : a = '.' ∧ b = '.'
    · obtain ⟨rfl, rfl⟩ := hab
      rfl
    · simp [part, Segment.map, toLower_dot, hab]
  | a :: b :: d :: c => simp [part, Segment.map]

theorem parts_toLower (n : Str) :
    parts (n.map toLower) = (parts n).map (Segment.map (List.map toLower)) := by
  have hsep : (fun c : Char => c == '/') ∘ toLower = fun c => c == '/' := by
    funext c
    simp [toLower_slash, Bool.beq_eq_decide_eq]
  rw [parts, splitOnP_map, hsep, parts, map_map, map_map]
  exact map_congr_left fun c _ => part_toLower c

theorem trim_toLower (n : Str) : trim (n.map toLower) = (trim n).map toLower := by
  have hlast : ∀ d : Char, (∀ c : Char, c.toLower = d ↔ c = d) →
      ((n.map toLower).getLast? = some d ↔ n.getLast? = some d) := by
    intro d hd
    simp [hd]
  unfold trim
  simp only [hlast _ toLower_backslash, hlast _ toLower_slash]
  split_ifs
  · exact (map_dropLast).symm
  · rfl

theorem Stands.refl (n : Str) : Stands n n :=
  ⟨fun _ j h => ⟨j, le_rfl, h⟩, fun _ j h => ⟨j, le_rfl, h⟩⟩

theorem Stands.of_toLower {f : Str} (h : n.map toLower = f.map toLower) : Stands n f := by
  have heq : ∀ g : Str → Str, (∀ s, g (s.map toLower) = (g s).map toLower) → ∀ k,
      walk k (parts (g n)) = walk k (parts (g f)) := by
    intro g hg k
    rw [← walk_map (List.map toLower), ← parts_toLower, ← hg, h, hg, parts_toLower, walk_map]
  exact ⟨fun k j hj => ⟨j, le_rfl, heq id (fun _ => rfl) k ▸ hj⟩,
    fun k j hj => ⟨j, le_rfl, heq trim trim_toLower k ▸ hj⟩⟩

theorem notMem_trim {s : Str} (hs : '/' ∉ s) : '/' ∉ trim s := by
  unfold trim
  split_ifs
  · exact fun h => hs (dropLast_subset _ h)
  · exact hs

/-- A name of one component against a name that is a component of its own. -/
theorem walk_parts_le {f : Str} (hn : '/' ∉ n) (hf : '/' ∉ f) (hpart : part f = .name f) (k j : ℕ)
    (h : walk k (parts n) = some j) : ∃ j', j ≤ j' ∧ walk k (parts f) = some j' := by
  rw [parts_of_notMem hf, hpart]
  refine ⟨k + 1, ?_, rfl⟩
  rw [parts_of_notMem hn] at h
  cases hp : part n with
  | here =>
    rw [hp] at h
    exact Option.some.inj h ▸ Nat.le_succ k
  | up =>
    rw [hp] at h
    cases k with
    | zero => cases h
    | succ k => exact Option.some.inj h ▸ by omega
  | name a =>
    rw [hp] at h
    exact (Option.some.inj h).ge

/-- An entry that loses what makes it a name when its last character is taken off. -/
def Treacherous (d : FileName) : Prop := d.chars = ['.', '\\'] ∨ d.chars = ['.', '.', '\\']
deriving Decidable

theorem trim_eq_or (s : Str) : trim s = s ∨ s = trim s ++ ['\\'] ∨ s = trim s ++ ['/'] := by
  unfold trim
  split_ifs with h
  · exact .inr (h.imp (fun h => (dropLast_append_getLast? _ h).symm)
      fun h => (dropLast_append_getLast? _ h).symm)
  · exact .inl rfl

theorem part_eq_name {c : Str} (hnil : c ≠ []) (hdot : c ≠ ['.']) (hdots : c ≠ ['.', '.']) :
    part c = .name c := by
  rw [part, if_neg (not_or.2 ⟨hnil, hdot⟩), if_neg hdots]

theorem stands_transformFileName {d : FileName} (hd : ¬ Treacherous d) :
    Stands (transformFileName d.chars) d.chars := by
  by_cases hself : d.chars = ['.'] ∨ d.chars = ['.', '.'] ∨ d.chars = ['\\']
  · have heq : transformFileName d.chars = d.chars := by
      rcases hself with h | h | h
      all_goals rw [h]; decide
    rw [heq]
    exact .refl d.chars
  · rw [not_or, not_or] at hself
    obtain ⟨hdot, hdots, hback⟩ := hself
    have hshort := notMem_transformFileName (by decide) d.no_slash
    have htrim : part (trim d.chars) = .name (trim d.chars) := by
      rcases trim_eq_or d.chars with h | h | h
      · rw [h]
        exact part_eq_name d.ne_nil hdot hdots
      · refine part_eq_name ?_ ?_ ?_
        · exact fun h' => hback (by rw [h, h']; rfl)
        · exact fun h' => hd (.inl (by rw [h, h']; rfl))
        · exact fun h' => hd (.inr (by rw [h, h']; rfl))
      · exact absurd (h ▸ mem_append_right _ (mem_singleton_self _)) d.no_slash
    exact ⟨walk_parts_le hshort d.no_slash (part_eq_name d.ne_nil hdot hdots),
      walk_parts_le (notMem_trim hshort) (notMem_trim d.no_slash) htrim⟩

/-! ## Names of the host -/

/-- No directory of the host has an entry `.\` or `..\`. -/
def Plain (host : Host) : Prop :=
  ∀ path entries, host.opendir path = .ok entries ∨ host.follow path = .ok entries →
    ∀ e ∈ entries, ¬ Treacherous e.name

theorem Plain.hostOpendir {host : Host} (hp : Plain host) {path : Str} {entries : List Dirent}
    (h : (hostOpendir host path).1 = .ok entries) {e : Dirent} (he : e ∈ entries) :
    ¬ Treacherous e.name := by
  refine hp path entries ?_ e he
  unfold HostFs.hostOpendir at h
  cases hopen : host.opendir path with
  | ok l =>
    rw [hopen] at h
    exact .inl h
  | error err =>
    rw [hopen] at h
    cases err with
    | enotdir =>
      cases hl : host.lstat path with
      | error err =>
        rw [hl] at h
        cases h
      | ok mode =>
        simp only [hl] at h
        split_ifs at h
        · cases hlink : host.readlink path with
          | some err =>
            rw [hlink] at h
            cases h
          | none =>
            rw [hlink] at h
            exact .inr h
    | _ => cases h

theorem getHostFileName_stands {host : Host} (hp : Plain host) (drv : Option ExtDrive)
    (dir name : Str) : Stands name (getHostFileName host drv dir name).1 := by
  unfold getHostFileName
  by_cases hpat : name.any (fun c => c = '*' || c = '?') = true
  · rw [if_pos hpat]
    exact .refl name
  · rw [if_neg hpat]
    cases host.stat (dir ++ name) with
    | none => exact .refl name
    | some err =>
      cases hdir : (hostOpendir host dir).1 with
      | error err =>
        simp only [hdir]
        exact .refl name
      | ok entries =>
        simp only [hdir]
        cases hfind : entries.find? (namesEntry drv name) with
        | some e =>
          have hnames := List.find?_some hfind
          have he := hp.hostOpendir hdir (List.mem_of_find?_eq_some hfind)
          rw [namesEntry, Bool.or_eq_true, Bool.and_eq_true] at hnames
          rcases hnames with ⟨-, hcase⟩ | hshort
          · exact .of_toLower (of_decide_eq_true hcase)
          · exact of_decide_eq_true hshort ▸ stands_transformFileName he
        | none =>
          split_ifs
          · refine .of_toLower ?_
            rw [map_map]
            exact map_congr_left fun c _ => (Char.toLower_toLower_eq_toLower c).symm
          · exact .refl name

end Aranym.HostFs
