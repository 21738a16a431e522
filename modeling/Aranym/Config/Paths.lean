/-
  Paths in the configuration file, after `expand_path` and `compress_path` of
  `cfgopts.cpp`.

  A path in the file starts at the home folder (`~/`), the data folder (`*/`),
  the folder of the configuration file or nowhere.  `expand_path` works on the
  memory from `dest` on: what it leaves behind the first `buf_size` characters
  tells whether it kept to its buffer.  Of `compress_path` only the string in
  its buffer is modelled.
-/
import Aranym.HostFs.ShortNames

namespace Aranym.Config

open List HostFs

/-- The three folders. -/
structure Folders where
  home : Str
  data : Str
  config : Str
  clean : nul ∉ home ++ data ++ config

/-- Always ends the string. -/
def safeStrncpy (dest src : Str) (size : ℕ) : Str :=
  if size > 0 then (memcpy dest 0 (strncpy src size)).set (size - 1) nul else dest

/-- Either slash. -/
def slash (c : Char) : Bool := c = '/' || c = '\\'

/-- What a path starts from. -/
inductive Anchor
  | home | data | config | none
deriving DecidableEq

/-- The tests of `expand_path`; behind its end a path has a NUL. -/
def anchor (path : Str) : Anchor :=
  let c := path.getD 0 nul
  let d := path.getD 1 nul
  if c = '~' ∧ slash d then .home
  else if c = '*' ∧ slash d then .data
  else if c ≠ '/' ∧ c ≠ '\\' ∧ d ≠ ':' then .config
  else .none

section
variable (F : Folders)

/-- The folder to put before what is left of the path. -/
def split (path : Str) : Option (Str × Str) :=
  match anchor path with
  | .home => some (F.home, path.drop 2)
  | .data => some (F.data, path.drop 2)
  | .config => some (F.config, path)
  | .none => none

/-- To a full path. -/
def expandPath (dest path : Str) (bufSize : ℕ) : Str :=
  let dest := dest.set 0 nul
  if path = [] then dest
  else
    match split F path with
    | none => safeStrncpy dest path bufSize
    | some (folder, path) =>
      let dest := safeStrncpy dest folder bufSize
      let prefixLen := (text dest).length
      if bufSize ≥ prefixLen + path.length then memcpy dest prefixLen (path ++ [nul]) else dest

/-- The string that `safe_strncpy` leaves. -/
def cut (size : ℕ) (s : Str) : Str := s.take (size - 1)

/-- `prefixLen && strncmp(path, dest, prefixLen) == 0`, with the folder in `dest`. -/
def starts (folder path : Str) : Bool := folder ≠ [] && folder.isPrefixOf path

/-- To a short path. -/
def compressPath (path : Str) (bufSize : ℕ) : Str :=
  let replaced (folder replacement : Str) : Str :=
    replacement ++ cut (bufSize - replacement.length)
      (path.drop (folder.length - replacement.length))
  if path = [] then []
  else if starts (cut bufSize F.config) path then replaced (cut bufSize F.config) []
  else if starts (cut bufSize F.data) path then replaced (cut bufSize F.data) ['*']
  else if starts (cut bufSize F.home) path then replaced (cut bufSize F.home) ['~']
  else cut bufSize path

/-- Folder and path fill the buffer, without a place for the NUL. -/
def exactFit (path : Str) (bufSize : ℕ) : Bool :=
  match split F path with
  | some (folder, path) => (cut bufSize folder).length + path.length = bufSize
  | none => false

/-- What is left behind the configuration folder is marked, so that it comes back with `folder`:
    that has to be the configuration folder with the mark, or the whole path if the rest does not
    fit. -/
def returns (folder path : Str) (bufSize : ℕ) : Bool :=
  let rest := path.drop F.config.length
  folder = F.config ++ rest.take 2 || folder = path &&
    bufSize < folder.length + (rest.drop 2).length

/-- The last character of a folder ends up behind its mark: it has to be a slash, or the folder is
    that mark and character, which stand for nothing. -/
def remarked (folder : Str) (mark : Char) : Bool :=
  let last := folder.getLastD nul
  slash last || folder = [mark, last] && (last = ':' || F.config = [])

/-- The paths that come back. -/
def restores (path : Str) (bufSize : ℕ) : Bool :=
  if starts F.config path then
    match anchor (path.drop F.config.length) with
    | .home => returns F F.home path bufSize
    | .data => returns F F.data path bufSize
    | .config => path ≠ F.config
    | .none => false
  else if starts F.data path then remarked F F.data '*'
  else if starts F.home path then remarked F F.home '~'
  else path = [] || anchor path = .none || F.config = [] && anchor path = .config

end

/-! ## Expansion -/

/-- The first `n` characters of `d` hold the string `s`, the others are those of `m`. -/
def Stored (m : Str) (n : ℕ) (d s : Str) : Prop :=
  ∃ junk, d = s ++ nul :: (junk ++ m.drop n) ∧ s.length + 1 + junk.length = n

section
variable {F : Folders} {m d s path folder rest : Str} {k n : ℕ}

theorem Stored.text_eq (h : Stored m n d s) (hs : nul ∉ s) : text d = s := by
  obtain ⟨junk, rfl, -⟩ := h
  exact text_append hs _

theorem Stored.in_buffer (h : Stored m n d s) : d.drop n = m.drop n ∧ nul ∈ d.take n := by
  obtain ⟨junk, rfl, rfl⟩ := h
  rw [← cons_append, ← append_assoc, drop_left' (by simp; omega), take_left' (by simp; omega)]
  simp

theorem Stored.memcpy (h : Stored m n d s) (hfit : s.length + rest.length < n) :
    Stored m n (memcpy d s.length (rest ++ [nul])) (s ++ rest) := by
  obtain ⟨junk, rfl, rfl⟩ := h
  refine ⟨junk.drop rest.length, ?_, by simp; omega⟩
  have hrest : rest.length ≤ junk.length := by omega
  simp [HostFs.memcpy, drop_append_of_le_length hrest, Nat.add_assoc, drop_append]

theorem split_clean (h : split F path = some (folder, rest)) (hpath : nul ∉ path) :
    nul ∉ folder ∧ nul ∉ rest := by
  have hF := F.clean
  have hdrop : nul ∉ path.drop 2 := fun hmem => hpath (mem_of_mem_drop hmem)
  simp only [mem_append, not_or] at hF
  unfold split at h
  split at h <;> simp only [Option.some.injEq, Prod.mk.injEq, reduceCtorEq] at h <;>
    obtain ⟨rfl, rfl⟩ := h
  exacts [⟨hF.1.1, hdrop⟩, ⟨hF.1.2, hdrop⟩, ⟨hF.2, hpath⟩]

section
variable (hn : 0 < n) (hm : n ≤ m.length)
include hn hm

theorem stored_set : Stored m n (m.set 0 nul) [] := by
  obtain ⟨c, m, rfl⟩ := exists_cons_of_length_pos (hn.trans_le hm)
  obtain ⟨n, rfl⟩ := Nat.exists_eq_add_one.2 hn
  refine ⟨m.take n, by simp, ?_⟩
  simp at hm ⊢
  omega

theorem stored_safeStrncpy (src : Str) :
    Stored m n (safeStrncpy (m.set 0 nul) src n) (cut n src) := by
  obtain ⟨n, rfl⟩ := Nat.exists_eq_add_one.2 hn
  refine ⟨replicate (n - src.length) nul, ?_, by simp [cut]; omega⟩
  have hlen : (strncpy src (n + 1)).length = n + 1 := by simp [strncpy_eq]; omega
  have htake : (strncpy src (n + 1)).take n = strncpy src n := by
    simp [strncpy_eq, take_append, take_take]
    omega
  rw [safeStrncpy, if_pos hn, HostFs.memcpy, hlen, set_append_left _ _ (by simp [hlen]),
    Nat.add_sub_cancel, set_eq_take_append_cons_drop, if_pos (by simp [hlen])]
  simp [htake, ← replicate_nul_append, drop_set_of_lt]
  simp [strncpy_eq, cut]
  omega

theorem stored_expandPath_none (hne : path ≠ []) (h : split F path = none) :
    Stored m n (expandPath F m path n) (cut n path) := by
  simpa [expandPath, hne, h] using stored_safeStrncpy hn hm path

theorem expandPath_some (hne : path ≠ []) (hpath : nul ∉ path)
    (h : split F path = some (folder, rest)) :
    ∃ d, Stored m n d (cut n folder) ∧ expandPath F m path n =
      if n ≥ (cut n folder).length + rest.length then
        memcpy d (cut n folder).length (rest ++ [nul]) else d := by
  have hd := stored_safeStrncpy hn hm folder
  have htext := hd.text_eq fun hmem => (split_clean h hpath).1 (mem_of_mem_take hmem)
  exact ⟨_, hd, by simp only [expandPath, hne, h, htext, if_false]⟩

end

/-- The size test does not count the NUL: exactly when folder and path fill the buffer, the NUL
    goes behind it. -/
theorem expandPath_in_buffer_iff (F : Folders) (m path : Str) (bufSize : ℕ) (hpath : nul ∉ path)
    (hn : 0 < bufSize) (hm : bufSize < m.length) :
    ((expandPath F m path bufSize).drop bufSize = m.drop bufSize ∧
      nul ∈ (expandPath F m path bufSize).take bufSize) ↔ exactFit F path bufSize = false := by
  by_cases hne : path = []
  · have hconfig : split F [] = some (F.config, []) := rfl
    have hlt : min (bufSize - 1) F.config.length ≠ bufSize := by omega
    subst hne
    simpa [exactFit, hconfig, cut, hlt, expandPath] using (stored_set hn hm.le).in_buffer
  unfold exactFit
  split
  · rename_i folder rest hsplit
    obtain ⟨d, hd, heq⟩ := expandPath_some hn hm.le hne hpath hsplit
    obtain ⟨hfolder, hrest⟩ := split_clean hsplit hpath
    have hs : nul ∉ cut bufSize folder := fun hmem => hfolder (mem_of_mem_take hmem)
    rw [heq]
    generalize cut bufSize folder = s at *
    rcases Nat.lt_trichotomy (s.length + rest.length) bufSize with hlt | hfit | hgt
    · simpa [hlt.le, hlt.ne] using (hd.memcpy hlt).in_buffer
    · obtain ⟨junk, rfl, -⟩ := hd
      have htake : (memcpy (s ++ nul :: (junk ++ m.drop bufSize)) s.length
        (rest ++ [nul])).take bufSize
          = s ++ rest := by
        simp [memcpy, ← hfit, take_append]
      rw [if_pos hfit.le, htake]
      simp [hs, hrest, hfit]
    · simpa [hgt.not_ge, hgt.ne'] using hd.in_buffer
  · rename_i hsplit
    simpa using (stored_expandPath_none hn hm.le hne hsplit).in_buffer

/-- Folders `/h/`, `/d/` and `/h/c/`. -/
def someFolders : Folders where
  home := ['/', 'h', '/']
  data := ['/', 'd', '/']
  config := ['/', 'h', '/', 'c', '/']
  clean := by decide

theorem expandPath_in_buffer_six :
    nul ∈ (expandPath someFolders (replicate 8 'x') ['~', '/', 'a'] 6).take 6 :=
  ((expandPath_in_buffer_iff someFolders _ _ 6 (by decide) (by decide) (by decide)).2 rfl).2

/-- The expansion of `~` is copied whatever the size of the buffer: of four bytes, five are written.
    -/
theorem expandPath_past_buffer : expandPath someFolders (replicate 8 'x') ['~', '/', 'a'] 4 =
    ['/', 'h', '/', 'a', nul, 'x', 'x', 'x'] := by
  decide

/-! ## Compressed and expanded again -/

/-- The string that `expand_path` leaves. -/
theorem text_expandPath (hne : path ≠ []) (hpath : nul ∉ path)
    (h : split F path = some (folder, rest))
    (hfolder : folder.length < n) (hm : n ≤ m.length) : text (expandPath F m path n) =
      if n < folder.length + rest.length then folder else folder ++ rest := by
  obtain ⟨hclean, hrest⟩ := split_clean h hpath
  obtain ⟨d, hd, heq⟩ := expandPath_some (m := m) (by omega) hm hne hpath h
  rw [cut, take_of_length_le (by omega)] at hd heq
  rw [heq]
  split_ifs with hle hlt hlt
  · omega
  · obtain ⟨junk, rfl, -⟩ := hd
    simpa [HostFs.memcpy] using text_append (s := folder ++ rest) (by simp [hclean, hrest]) _
  · exact hd.text_eq hclean
  · omega

theorem text_expandPath_none (hpath : nul ∉ path) (h : split F path = none) (hn : 0 < n)
    (hm : n ≤ m.length) : text (expandPath F m path n) = cut n path := by
  have hne : path ≠ [] := by rintro rfl; cases h
  exact (stored_expandPath_none hn hm hne h).text_eq fun hmem => hpath (mem_of_mem_take hmem)

/-- A folder that the buffer cuts off is longer than the path. -/
theorem starts_cut (h : path.length + 1 < k) (folder : Str) :
    starts (cut k folder) path = starts folder path ∧
    (starts folder path → cut k folder = folder) := by
  by_cases hlen : folder.length ≤ k - 1
  · simp [cut, take_of_length_le hlen]
  · have hlong : ∀ l : Str, path.length < l.length → starts l path = false := fun l hl =>
      Bool.eq_false_iff.2 fun h =>
        (( isPrefixOf_iff_prefix.1 (Bool.and_eq_true_iff.1 h).2).length_le.trans_lt hl).false
    simp [hlong (cut k folder) (by simp [cut]; omega), hlong folder (by omega)]

theorem anchor_marked (F : Folders) (path : Str) (h : anchor path = .home ∨ anchor path = .data) :
    ∃ c d rest, path = c :: d :: rest ∧
    split F path = some (if anchor path = .home then F.home else F.data, rest) := by
  match path, h with
  | c :: d :: rest, h => exact ⟨c, d, rest, rfl, by rcases h with h | h <;> simp [split, h]⟩
  | [], h => exact absurd h (by decide)
  | [c], h =>
    have hnul : slash nul = false := rfl
    unfold anchor at h
    simp [hnul] at h
    split_ifs at h <;> simp_all

theorem eq_nil_of_starts (h : starts folder path = false) (heq : folder ++ rest = path) :
    folder = [] := by
  by_contra hne
  exact Bool.false_ne_true (h.symm.trans
    (Bool.and_eq_true_iff.2 ⟨by simpa using hne, isPrefixOf_iff_prefix.2 ⟨rest, heq⟩⟩))

section
variable (hfolder : folder.length < n) (hm : n ≤ m.length) (hn : path.length < n)
include hfolder hm hn

/-- A path that does not start with the folder it is expanded with. -/
theorem expandPath_beside_iff {q : Str} (hne : path ≠ []) (hq : q ≠ []) (hclean : nul ∉ q)
    (hsplit : split F q = some (folder, rest)) (hstart : starts folder path = false) :
    text (expandPath F m q n) = path ↔ folder = [] ∧ rest = path := by
  rw [text_expandPath hq hclean hsplit hfolder hm]
  constructor
  · intro h
    have hnil : folder = [] := by
      split_ifs at h
      · exact eq_nil_of_starts hstart ((append_nil folder).trans h)
      · exact eq_nil_of_starts hstart h
    subst hnil
    split_ifs at h
    · exact absurd h.symm hne
    · exact ⟨rfl, h⟩
  · rintro ⟨rfl, rfl⟩
    exact if_neg (by simp; omega)

/-- A marked rest behind the configuration folder. -/
theorem expandPath_rest_iff (hp : nul ∉ path) (hstart : starts F.config path) {c d : Char} {r : Str}
    (hrest : path.drop F.config.length = c :: d :: r)
    (hsplit : split F (c :: d :: r) = some (folder, r)) :
    text (expandPath F m (c :: d :: r) n) = path ↔ returns F folder path n := by
  obtain ⟨tail, rfl⟩ := isPrefixOf_iff_prefix.1 (Bool.and_eq_true_iff.1 hstart).2
  rw [drop_left] at hrest
  subst hrest
  rw [text_expandPath (by simp) (fun h => hp (mem_append_right _ h)) hsplit hfolder hm]
  have hcancel : F.config ++ c :: d :: r = (F.config ++ [c, d]) ++ r := by simp
  simp only [returns, drop_left, take_succ_cons, take_zero, drop_succ_cons, drop_zero,
    Bool.or_eq_true, Bool.and_eq_true, decide_eq_true_eq]
  split_ifs with hlong
  · refine ⟨fun h => .inr ⟨h, hlong⟩, fun h => h.elim (fun h => ?_) And.left⟩
    simp [h] at hlong hn
    omega
  · rw [hcancel, append_left_inj]
    exact ⟨.inl, fun h => h.resolve_right fun h => hlong h.2⟩

/-- A folder under its mark. -/
theorem expandPath_marked_iff {mark : Char} (hmark : mark ∉ [nul, '/', '\\', ':']) (hp : nul ∉ path)
    (hsplit : ∀ c rest, split F (mark :: c :: rest) = if slash c then some (folder, rest)
      else if c = ':' then none else some (F.config, mark :: c :: rest))
    (hstart : starts folder path) (hconfig : starts F.config path = false)
    (hshort : F.config.length < n) :
    text (expandPath F m (mark :: path.drop (folder.length - 1)) n) = path ↔
    remarked F folder mark := by
  obtain ⟨rest, rfl⟩ := isPrefixOf_iff_prefix.1 (Bool.and_eq_true_iff.1 hstart).2
  rcases eq_nil_or_concat' folder with rfl | ⟨l, c, rfl⟩
  · simp [starts] at hstart
  have hdrop : (l ++ [c] ++ rest).drop ((l ++ [c]).length - 1) = c :: rest := by simp
  have hl : l ++ [c] ++ rest = mark :: c :: rest ↔ l = [mark] := by
    rw [append_assoc, show mark :: c :: rest = [mark] ++ ([c] ++ rest) from rfl, append_left_inj]
  have hlast : l ++ [c] = [mark, c] ↔ l = [mark] := by
    rw [show [mark, c] = [mark] ++ [c] from rfl, append_left_inj]
  simp only [mem_cons, not_or, mem_append] at hmark hp
  have hclean : nul ∉ mark :: c :: rest := by simp [Ne.symm hmark.1, hp]
  have hs := hsplit c rest
  rw [hdrop]
  simp only [remarked, getLastD_concat, hlast, Bool.or_eq_true, Bool.and_eq_true, decide_eq_true_eq]
  split_ifs at hs with hslash hcolon <;>
    simp only [hslash, true_or, Bool.false_eq_true, false_or, iff_true, ← hl]
  · rw [text_expandPath (by simp) hclean hs hfolder hm, length_append,
      if_neg (by simp at hn ⊢; omega)]
  · rw [text_expandPath_none hclean hs (by omega) hm, cut]
    simp only [hcolon, true_or, and_true]
    by_cases hlen : (mark :: ':' :: rest).length ≤ n - 1
    · rw [take_of_length_le hlen, eq_comm]
    · -- the folder is a colon, which is not the mark
      have hnil : l.length = 0 := by
        simp only [length_append, length_cons, length_nil] at hn hlen
        omega
      obtain ⟨k, rfl⟩ : ∃ k, n = k + 2 := ⟨n - 2, by simp at hn; omega⟩
      obtain rfl := length_eq_zero_iff.1 hnil
      simp [hmark]
  · rw [expandPath_beside_iff hshort hm hn (by simp) (by simp) hclean hs hconfig, and_comm, eq_comm]
    simp only [hcolon, false_or]

end

/-- **Path compression**: the paths that come back from the configuration file, where the path and
    the folders fit the buffers. -/
theorem expandPath_compressPath_iff (F : Folders) (m p : Str) (k n : ℕ) (hp : nul ∉ p)
    (hk : p.length + 1 < k) (hn : p.length < n) (hm : n ≤ m.length)
    (hF : F.home.length < n ∧ F.data.length < n ∧ F.config.length < n) :
    text (expandPath F m (compressPath F p k) n) = p ↔ restores F p n := by
  by_cases hne : p = []
  · have hnil := (stored_set (m := m) (n := n) (by omega) hm).text_eq (by simp)
    simpa [hne, compressPath, expandPath, restores, starts] using hnil
  have hcut : ∀ j i, i ≤ 1 → cut (k - i) (p.drop j) = p.drop j := fun j i hi =>
    take_of_length_le (by rw [length_drop]; omega)
  have hs := fun folder => starts_cut hk folder
  simp only [restores, compressPath, (hs _).1, if_neg hne]
  split_ifs with hconfig hdata hhome
  · rw [(hs _).2 hconfig, length_nil, nil_append, hcut _ 0 zero_le_one, Nat.sub_zero]
    cases hanchor : anchor (p.drop F.config.length) with
    | home | data =>
      obtain ⟨c, d, r, hrest, hsplit⟩ :=
        anchor_marked F (p.drop F.config.length) (by simp [hanchor])
      rw [hrest] at hanchor hsplit ⊢
      simp only [hanchor, reduceCtorEq, if_true, if_false] at hsplit
      exact expandPath_rest_iff (by omega) hm hn hp hconfig hrest hsplit
    | config =>
      obtain ⟨r, rfl⟩ := isPrefixOf_iff_prefix.1 (Bool.and_eq_true_iff.1 hconfig).2
      rw [drop_left] at hanchor ⊢
      by_cases hr : r = []
      · have hnil := (stored_set (m := m) (n := n) (by omega) hm).text_eq (by simp)
        simpa [hr, expandPath, hnil] using Ne.symm (by simpa [hr] using hne)
      · have hsplit : split F r = some (F.config, r) := by simp [split, hanchor]
        rw [text_expandPath hr (fun h => hp (mem_append_right _ h)) hsplit hF.2.2 hm,
          ← length_append, if_neg (by omega)]
        simp [hr]
    | none =>
      have hlen := length_drop (i := F.config.length) (l := p)
      have hpos : F.config.length ≠ 0 := by simpa using (Bool.and_eq_true_iff.1 hconfig).1
      have hclean : nul ∉ p.drop F.config.length := fun h => hp (mem_of_mem_drop h)
      rw [text_expandPath_none hclean (by simp [split, hanchor]) (by omega) hm, cut,
        take_of_length_le (by omega)]
      refine iff_of_false (fun h => ?_) Bool.false_ne_true
      have := congrArg length h
      have := length_pos_iff.2 hne
      omega
  · rw [(hs _).2 hdata, length_singleton, hcut _ 1 le_rfl]
    exact expandPath_marked_iff hF.2.1 hm hn (by decide) hp
      (fun c rest => by by_cases hc : slash c <;> simp [split, anchor, hc]; split_ifs <;> simp_all)
      hdata (Bool.eq_false_iff.2 hconfig) hF.2.2
  · rw [(hs _).2 hhome, length_singleton, hcut _ 1 le_rfl]
    exact expandPath_marked_iff hF.1 hm hn (by decide) hp
      (fun c rest => by by_cases hc : slash c <;> simp [split, anchor, hc]; split_ifs <;> simp_all)
      hhome (Bool.eq_false_iff.2 hconfig) hF.2.2
  · have hp' : cut k p = p := take_of_length_le (by omega)
    simp only [Bool.not_eq_true] at hconfig hdata hhome
    rw [hp']
    cases hanchor : anchor p with
    | home | data =>
      obtain ⟨c, d, r, rfl, hsplit⟩ := anchor_marked F p (by simp [hanchor])
      simp only [hanchor, reduceCtorEq, if_true, if_false] at hsplit
      have hr : r ≠ c :: d :: r := ne_of_apply_ne length (by simp only [length_cons]; omega)
      rw [expandPath_beside_iff (by omega) hm hn hne hne hp hsplit ‹_›]
      simp [hr]
    | config =>
      have hsplit : split F p = some (F.config, p) := by simp [split, hanchor]
      rw [expandPath_beside_iff hF.2.2 hm hn hne hne hp hsplit hconfig]
      simp [hne]
    | none =>
      rw [text_expandPath_none hp (by simp [split, hanchor]) (by omega) hm, cut,
        take_of_length_le (by omega)]
      simp

theorem expandPath_compressPath_data :
    text (expandPath someFolders (replicate 16 'x')
      (compressPath someFolders ['/', 'd', '/', 'a'] 16) 16) =
      ['/', 'd', '/', 'a'] :=
  (expandPath_compressPath_iff someFolders _ _ 16 16 (by decide) (by decide) (by decide) (by decide)
    (by decide)).2 rfl

/-- The configuration folder itself compresses to the empty path. -/
theorem expandPath_compressPath_config :
    text (expandPath someFolders (replicate 16 'x') ['~', '/', 'c', '/'] 16) =
        ['/', 'h', '/', 'c', '/'] ∧
      text (expandPath someFolders (replicate 16 'x')
        (compressPath someFolders ['/', 'h', '/', 'c', '/'] 16) 16) = [] := by
  decide

end
end Aranym.Config
