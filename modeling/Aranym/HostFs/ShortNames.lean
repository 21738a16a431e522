/-
  Names in 8+3 form.

  `transformFileName` patches a buffer of 13 bytes in place.  What it leaves
  there is one name part and, behind a dot, one extension
  (`transformFileName_shape`), taken from the source and from its hash.

  The lemmas on upper and lower case come with no smaller import.
-/
import Aranym.HostFs.Names
import Mathlib

namespace Aranym.HostFs

open List
open Char (toLower)

variable {c d : Char}

/-! ## Characters -/

theorem toLower_eq_iff (hd : d.isAlpha = false) : c.toLower = d ↔ c = d := by
  by_cases hc : c.isUpper
  · have hother : ∀ e : Char, e.isAlpha = c.isAlpha → e ≠ d := by
      rintro e he rfl
      rw [he, Char.isAlpha, hc] at hd
      cases hd
    exact iff_of_false (hother _ (Char.isAlpha_toLower_eq_isAlpha c)) (hother c rfl)
  · rw [Char.toLower_eq_of_not_isUpper hc]

theorem toUpper_eq_iff (hd : d.isAlpha = false) : c.toUpper = d ↔ c = d := by
  rw [← toLower_eq_iff (c := c.toUpper) hd, Char.toLower_toUpper_eq_toLower, toLower_eq_iff hd]

/-- No space or dot. -/
def underscore (c : Char) : Char := if c = ' ' ∨ c = '.' then '_' else c

/-- A character of the source in a short name. -/
def shortChar (c : Char) : Char := (underscore c).toUpper

/-- Each character. -/
def short (s : Str) : Str := s.map shortChar

theorem underscore_ne (hd : d = ' ' ∨ d = '.') : underscore c ≠ d := by
  unfold underscore
  split_ifs with hc
  · rcases hd with rfl | rfl <;> decide
  · rintro rfl
    exact hc hd

theorem shortChar_ne (hd : d = ' ' ∨ d = '.') : shortChar c ≠ d := by
  have halpha : d.isAlpha = false := by rcases hd with rfl | rfl <;> decide
  rw [shortChar, ne_eq, toUpper_eq_iff halpha]
  exact underscore_ne hd

theorem shortChar_of_ne (hspace : c ≠ ' ') (hdot : c ≠ '.') : shortChar c = c.toUpper := by
  rw [shortChar, underscore, if_neg (not_or.2 ⟨hspace, hdot⟩)]

theorem shortChar_shortChar (c : Char) : shortChar (shortChar c) = shortChar c := by
  rw [shortChar_of_ne (shortChar_ne (.inl rfl)) (shortChar_ne (.inr rfl))]
  exact Char.toUpper_toUpper_eq_toUpper _

@[simp] theorem length_short (s : Str) : (short s).length = s.length := length_map _

@[simp] theorem short_eq_nil (s : Str) : short s = [] ↔ s = [] := map_eq_nil_iff

theorem short_short (s : Str) : short (short s) = short s := by
  unfold short
  rw [map_map]
  refine map_congr_left fun c _ => ?_
  rw [Function.comp_apply, shortChar_shortChar]

variable {s : Str}

theorem notMem_short (hd : d = ' ' ∨ d = '.') : d ∉ short s := by
  rintro h
  obtain ⟨c, -, hc⟩ := List.mem_map.1 h
  exact shortChar_ne hd hc

theorem shortChar_ne_nul (hc : c ≠ nul) : shortChar c ≠ nul := by
  rw [shortChar, ne_eq, toUpper_eq_iff (by decide), underscore]
  split_ifs
  · decide
  · exact hc

theorem nul_notMem_short (hs : nul ∉ s) : nul ∉ short s := by
  intro h
  obtain ⟨c, hc, heq⟩ := List.mem_map.1 h
  exact shortChar_ne_nul (fun h => hs (h ▸ hc)) heq

theorem notMem_hashStr (htilde : d ≠ '~') (halpha : d.isAlphanum = false) (source : Str) :
    d ∉ hashStr source := by
  have hdigit : ∀ n, n < 16 → d ≠ Nat.digitChar n := by
    rintro n hn rfl
    have : ∀ n, n < 16 → (Nat.digitChar n).isAlphanum = true := by decide
    exact Bool.false_ne_true (halpha.symm.trans (this n hn))
  unfold hashStr
  rw [mem_cons, mem_cons, mem_singleton]
  rintro (h | h | h)
  · exact htilde h
  all_goals exact hdigit _ (Nat.mod_lt _ (by decide)) h

variable (source : Str)

theorem nul_notMem_hashStr : nul ∉ hashStr source :=
  notMem_hashStr (by decide) (by decide) source

/-! ## Buffers -/

/-- The string in a buffer. -/
def text (dest : Str) : Str := dest.takeWhile (· ≠ nul)

theorem text_append (hs : nul ∉ s) (rest : Str) : text (s ++ nul :: rest) = s := by
  have hall : ∀ c ∈ s, decide (c ≠ nul) = true := fun c hc => decide_eq_true fun h => hs (h ▸ hc)
  rw [text, takeWhile_append_of_pos hall]
  simp

theorem underscores_append (hs : nul ∉ s) (rest : Str) :
    underscores (s ++ nul :: rest) = s.map underscore ++ nul :: rest := by
  have hall : ∀ c ∈ s, decide (c ≠ nul) = true := fun c hc => decide_eq_true fun h => hs (h ▸ hc)
  have htext : (s ++ nul :: rest).takeWhile (· ≠ nul) = s := text_append hs rest
  rw [underscores, htext, dropWhile_append_of_pos hall, dropWhile_cons_of_neg (by simp)]
  rfl

theorem strncpy_eq (s : Str) (n : ℕ) :
    strncpy s n = s.take n ++ List.replicate (n - s.length) nul := by
  rw [strncpy, take_append, take_take, Nat.min_self, take_replicate, length_take]
  congr 2
  omega

theorem replicate_nul_append (k : ℕ) (rest : Str) :
    List.replicate k nul ++ nul :: rest = nul :: (List.replicate k nul ++ rest) := by
  rw [← singleton_append, ← append_assoc, ← replicate_succ', replicate_succ, cons_append]

theorem copied_of_le (h : source.length ≤ 12) :
    ∃ rest, strncpy source 12 ++ [nul] = source ++ nul :: rest := by
  rw [strncpy_eq, take_of_length_le h, append_assoc, replicate_nul_append]
  exact ⟨_, rfl⟩

theorem length_copied : (strncpy source 12 ++ [nul]).length = 13 := by
  rw [strncpy_eq, length_append, length_append, length_take, length_replicate, length_singleton]
  omega

variable {n : ℕ}

theorem take_copied (hn : n ≤ source.length) (h12 : n ≤ 12) :
    (strncpy source 12 ++ [nul]).take n = source.take n := by
  rw [strncpy_eq, append_assoc, take_append_of_le_length (by rw [length_take]; omega),
    take_take, Nat.min_eq_left h12]

/-- A dot and `e` characters of an extension behind the first `n` characters. -/
def extend (dest : Str) (n : ℕ) (dot : Str) (e : ℕ) : Str :=
  (memcpy (dest.set n '.') (n + 1) (strncpy dot e)).set (n + e + 1) nul

variable {dest : Str} {e : ℕ}

theorem extend_eq (h : n + e + 1 < dest.length) (dot : Str) :
    ∃ rest, extend dest n dot e = dest.take n ++ '.' :: (dot.take e ++ nul :: rest) := by
  have hlen : (strncpy dot e).length = e := by
    rw [strncpy_eq, length_append, length_take, length_replicate]
    omega
  have htake : (dest.set n '.').take (n + 1) = dest.take n ++ ['.'] := by
    rw [take_succ_eq_append_getElem (by rw [length_set]; omega), getElem_set_self,
      take_set_of_le (Nat.le_refl n)]
  have hdrop : (dest.set n '.').drop (n + 1 + e) = dest.drop (n + e + 1) := by
    rw [drop_set_of_lt (by omega)]
    congr 1
    omega
  have hprefix : (dest.take n ++ ['.'] ++ strncpy dot e).length = n + e + 1 := by
    rw [length_append, length_append, length_take, hlen, length_singleton]
    omega
  obtain ⟨c, rest, hrest⟩ : ∃ c rest, dest.drop (n + e + 1) = c :: rest :=
    ⟨_, _, drop_eq_getElem_cons h⟩
  refine ⟨List.replicate (e - dot.length) nul ++ rest, ?_⟩
  rw [extend, memcpy, hlen, htake, hdrop, hrest, set_append, if_neg (by omega),
    hprefix, Nat.sub_self, set_cons_zero, strncpy_eq, ← replicate_nul_append]
  simp

theorem length_memcpy {src : Str} {i : ℕ} (h : i + src.length ≤ dest.length) :
    (memcpy dest i src).length = dest.length := by
  rw [memcpy, length_append, length_append, length_take, length_drop]
  omega

theorem length_extend (h : n + e + 1 < dest.length) (dot : Str) :
    (extend dest n dot e).length = dest.length := by
  have hlen : (strncpy dot e).length = e := by
    rw [strncpy_eq, length_append, length_take, length_replicate]
    omega
  rw [extend, length_set, length_memcpy (by rw [length_set, hlen]; omega), length_set]

theorem length_underscores (dest : Str) : (underscores dest).length = dest.length := by
  rw [underscores, length_append, length_map, ← length_append, takeWhile_append_dropWhile]

/-! ## Name and extension -/

theorem strrchr_of_notMem (h : c ∉ s) : strrchr c s = none := by
  induction s with
  | nil => rfl
  | cons x s ih =>
    obtain ⟨hx, hs⟩ := not_or.1 (List.mem_cons.not.1 h)
    rw [strrchr, ih hs]
    exact if_neg (Ne.symm hx)

theorem strrchr_append {b : Str} (h : c ∉ b) (a : Str) :
    strrchr c (a ++ c :: b) = some (c :: b) := by
  induction a with
  | nil =>
    rw [nil_append, strrchr, strrchr_of_notMem h]
    exact if_pos rfl
  | cons x a ih => rw [cons_append, strrchr, ih]

theorem exists_last (h : c ∈ s) : ∃ a b, s = a ++ c :: b ∧ c ∉ b := by
  induction s with
  | nil => cases h
  | cons x s ih =>
    by_cases hs : c ∈ s
    · obtain ⟨a, b, rfl, hb⟩ := ih hs
      exact ⟨x :: a, b, rfl, hb⟩
    · obtain rfl : c = x := (List.mem_cons.1 h).resolve_right hs
      exact ⟨[], s, rfl, hs⟩

/-- The dot in front of the extension and what is behind it. -/
def extension (source : Str) : Option Str := (strrchr '.' source).filter (·.length ≠ source.length)

variable {name ext : Str}

theorem extension_of_append (hname : name ≠ []) (hext : '.' ∉ ext) :
    extension (name ++ '.' :: ext) = some ('.' :: ext) := by
  have hpos := List.length_pos_iff.2 hname
  rw [extension, strrchr_append hext, Option.filter_some, if_pos]
  simp only [length_append, length_cons, ne_eq, decide_not, Bool.not_eq_true',
    decide_eq_false_iff_not]
  omega

theorem extension_cases : extension source = none ∨
      ∃ name ext, name ≠ [] ∧ '.' ∉ ext ∧ source = name ++ '.' :: ext := by
  by_cases h : '.' ∈ source
  · obtain ⟨a, b, rfl, hb⟩ := exists_last h
    by_cases ha : a = []
    · left
      rw [extension, strrchr_append hb, Option.filter_some, if_neg]
      simp [ha]
    · exact .inr ⟨a, b, ha, hb, rfl⟩
  · left
    rw [extension, strrchr_of_notMem h]
    rfl

/-- The buffer before its letters are made capitals. -/
def shortBuffer (source : Str) : Str :=
  if source = ['.'] ∨ source = ['.', '.'] then source ++ [nul]
  else
    let dot := extension source
    let nameLen := source.length - (dot.getD []).length
    let extLen := if nameLen = source.length then 0 else source.length - nameLen - 1
    let dest := strncpy source 12 ++ [nul]
    let (dest, nameLen, dot) :=
      if 8 < nameLen ∨ 3 < extLen ∨ nameLen ≤ 8 ∧ extLen = 0 ∧ dot.isSome then
        shorten source dest nameLen extLen dot
      else (dest, nameLen, dot)
    let dest := underscores dest
    if dot.isSome then dest.set nameLen '.' else dest

variable {source : Str}

/-- `.` and `..`, which are not transformed. -/
abbrev IsDots (source : Str) : Prop := source = ['.'] ∨ source = ['.', '.']

theorem transformFileName_eq (h : ¬ IsDots source) :
    transformFileName source = (text (shortBuffer source)).map Char.toUpper := by
  unfold transformFileName shortBuffer
  rw [if_neg h, if_neg h]
  rfl

/-- The buffer ends up with a name part alone, or with a name part and an extension; its size is
    respected. -/
def Leaves (source name ext : Str) : Prop :=
  (shortBuffer source).length = 13 ∧ ∃ rest, shortBuffer source =
    name.map underscore ++ (if ext = [] then [] else '.' :: ext.map underscore) ++ nul :: rest

theorem Leaves.eq (h : Leaves source name ext)
    (hdots : ¬ IsDots source) (hname : nul ∉ name) (hext : nul ∉ ext) :
    transformFileName source = short name ++ if ext = [] then [] else '.' :: short ext := by
  obtain ⟨-, rest, h⟩ := h
  have hund : ∀ {s : Str}, nul ∉ s → nul ∉ s.map underscore := by
    intro s hs hmem
    obtain ⟨c, hc, heq⟩ := List.mem_map.1 hmem
    unfold underscore at heq
    split_ifs at heq
    · exact absurd heq (by decide)
    · exact hs (heq ▸ hc)
  rw [transformFileName_eq hdots, h, text_append]
  · split_ifs with he
    · simp [short, shortChar]
    · rw [map_append, map_cons, map_map, map_map]
      rfl
  · rw [mem_append]
    split_ifs with he
    · simpa using hund hname
    · rintro (hmem | hmem)
      · exact hund hname hmem
      · rcases List.mem_cons.1 hmem with hmem | hmem
        · exact absurd hmem (by decide)
        · exact hund hext hmem

theorem finished (hname : nul ∉ name) (hext : nul ∉ ext) (rest : Str) :
    (underscores (name ++ '.' :: (ext ++ nul :: rest))).set name.length '.' =
      name.map underscore ++ '.' :: ext.map underscore ++ nul :: rest := by
  have hnul : nul ∉ name ++ '.' :: ext := by
    rw [mem_append, mem_cons]
    rintro (h | h | h)
    · exact hname h
    · exact absurd h (by decide)
    · exact hext h
  have hbuf : name ++ '.' :: (ext ++ nul :: rest) = name ++ '.' :: ext ++ nul :: rest := by simp
  rw [hbuf, underscores_append hnul, map_append, map_cons, append_assoc, set_append,
    if_neg (by simp)]
  simp

variable {nameLen extLen : ℕ} {dot : Option Str}

section

variable (hdots : ¬ IsDots source) (hdot : extension source = dot)
  (hname : source.length - (dot.getD []).length = nameLen)
  (hext : (if nameLen = source.length then 0 else source.length - nameLen - 1) = extLen)
include hdots hdot hname hext

theorem shortBuffer_copied (hfits : ¬ (8 < nameLen ∨ 3 < extLen ∨ nameLen ≤ 8 ∧ extLen = 0 ∧
    dot.isSome)) :
    shortBuffer source =
      if dot.isSome then (underscores (strncpy source 12 ++ [nul])).set nameLen '.'
      else underscores (strncpy source 12 ++ [nul]) := by
  subst hdot hname hext
  unfold shortBuffer
  rw [if_neg hdots]
  extract_lets dot nameLen extLen dest
  rw [if_neg hfits]

/-- Other names are shortened to `n` characters and `e` behind the dot. -/
theorem leaves_of_shorten (hlong : 8 < nameLen ∨ 3 < extLen ∨ nameLen ≤ 8 ∧ extLen = 0 ∧ dot.isSome)
    {base newDot : Str} (hshort : shorten source (strncpy source 12 ++ [nul]) nameLen extLen dot =
      (extend base n newDot e, n, some newDot))
    (hlen : base.length = 13) (hroom : n + e + 1 < base.length) (hbase : nul ∉ base.take n)
    (hnew : nul ∉ newDot) (hne : newDot.take e ≠ []) :
    Leaves source (base.take n) (newDot.take e) := by
  have hbuf : shortBuffer source = (underscores (extend base n newDot e)).set n '.' := by
    subst hdot hname hext
    unfold shortBuffer
    rw [if_neg hdots]
    extract_lets dot nameLen extLen dest
    rw [if_pos hlong]
    have hshort' : shorten source dest nameLen extLen dot = _ := hshort
    rw [hshort']
    rfl
  obtain ⟨rest, hrest⟩ := extend_eq hroom newDot
  have hnew' : nul ∉ newDot.take e := fun h => hnew (mem_of_mem_take h)
  have hfin := finished hbase hnew' rest
  rw [length_take, Nat.min_eq_left (by omega)] at hfin
  refine ⟨?_, rest, ?_⟩
  · rw [hbuf, length_set, length_underscores, length_extend hroom, hlen]
  · rw [hbuf, hrest, hfin, if_neg hne]

end

theorem shorten_insert (source dest : Str) (h : nameLen < 12) : shorten source dest nameLen 0 none =
      (extend dest 8 (source.drop 8) 3, 8, some (source.drop 8)) := by
  unfold shorten
  rw [if_pos rfl, if_neg (by omega)]
  rfl

theorem shorten_hash (source dest : Str) (h : 12 ≤ nameLen ∨ dot.isSome) :
    shorten source dest nameLen 0 dot =
      (extend dest (min 8 nameLen) (hashStr source) 3, min 8 nameLen, some (hashStr source)) := by
  unfold shorten
  rw [if_pos rfl]
  by_cases h12 : 12 ≤ nameLen
  · rw [if_pos h12, Nat.min_eq_left (by omega)]
    rfl
  · obtain ⟨t, rfl⟩ := Option.isSome_iff_exists.1 (h.resolve_left h12)
    rw [if_neg h12]
    rfl

theorem shorten_name (source dest : Str) (nameLen : ℕ) (h : extLen ≠ 0) (ext : Str) :
    shorten source dest nameLen extLen (some ('.' :: ext)) =
      (extend (memcpy dest (min 5 nameLen) (hashStr source ++ [nul])) (min 5 nameLen + 3) ext
        (min 3 extLen), min 5 nameLen + 3, some ext) := by
  unfold shorten
  rw [if_neg h]
  rfl

section
variable {source : Str} (hdots : ¬ IsDots source) (hnul : nul ∉ source)
include hdots hnul

theorem leaves_plain (hext : extension source = none) (hlen : source.length ≤ 8) :
    Leaves source source [] := by
  obtain ⟨rest, hrest⟩ := copied_of_le source (by omega)
  have hbuf := shortBuffer_copied hdots hext rfl rfl (by simp; omega)
  rw [if_neg (by simp)] at hbuf
  refine ⟨?_, rest, ?_⟩
  · rw [hbuf, length_underscores, length_copied]
  · rw [hbuf, hrest, underscores_append hnul]
    simp

theorem leaves_insert (hext : extension source = none) (hlen : 8 < source.length)
    (hlen' : source.length < 12) : Leaves source (source.take 8) (source.drop 8) := by
  have hdrop : (source.drop 8).take 3 = source.drop 8 :=
    take_of_length_le (by rw [length_drop]; omega)
  have htake := take_copied source (n := 8) (by omega) (by decide)
  rw [← htake, ← hdrop]
  refine leaves_of_shorten hdots hext rfl (if_pos rfl) (.inl hlen) (shorten_insert _ _ hlen')
    (length_copied source) ?_ ?_ ?_ ?_
  · rw [length_copied]
    decide
  · rw [htake]
    exact fun h => hnul (mem_of_mem_take h)
  · exact fun h => hnul (mem_of_mem_drop h)
  · rw [hdrop, ne_eq, drop_eq_nil_iff]
    omega

theorem leaves_hash {nameLen : ℕ} {dot : Option Str} (hdot : extension source = dot)
    (hname : source.length - (dot.getD []).length = nameLen)
    (hext : (if nameLen = source.length then 0 else source.length - nameLen - 1) = 0)
    (h : 12 ≤ nameLen ∨ dot.isSome) :
    Leaves source (source.take (min 8 nameLen)) (hashStr source) := by
  have hhash : (hashStr source).take 3 = hashStr source := rfl
  have htake := take_copied source (n := min 8 nameLen) (by omega) (by omega)
  have hlong : 8 < nameLen ∨ 3 < 0 ∨ nameLen ≤ 8 ∧ (0 : ℕ) = 0 ∧ dot.isSome := by
    rcases h with h | h
    · exact .inl (by omega)
    · by_cases h8 : nameLen ≤ 8
      · exact .inr (.inr ⟨h8, rfl, h⟩)
      · exact .inl (by omega)
  rw [← htake, ← hhash]
  refine leaves_of_shorten hdots hdot hname hext hlong (shorten_hash _ _ h)
    (length_copied source) ?_ ?_ (nul_notMem_hashStr source) (by simp [hashStr])
  · rw [length_copied]
    omega
  · rw [htake]
    exact fun h => hnul (mem_of_mem_take h)

end

section
variable {name ext : Str}

theorem nameLen_eq :
    (name ++ '.' :: ext).length - ((some ('.' :: ext)).getD []).length = name.length := by
  simp

theorem extLen_eq : (if name.length = (name ++ '.' :: ext).length then 0
    else (name ++ '.' :: ext).length - name.length - 1) = ext.length := by
  simp

variable (hdots : ¬ IsDots (name ++ '.' :: ext))
  (hname : name ≠ []) (hext : '.' ∉ ext) (hnul : nul ∉ name ++ '.' :: ext)
include hdots hname hext hnul

theorem leaves_fits (hlen : name.length ≤ 8) (hne : ext ≠ []) (hlen' : ext.length ≤ 3) :
    Leaves (name ++ '.' :: ext) name ext := by
  have hpos := List.length_pos_iff.2 hne
  obtain ⟨rest, hrest⟩ := copied_of_le (name ++ '.' :: ext) (by simp; omega)
  have hnul' : nul ∉ name ∧ nul ∉ ext :=
    ⟨fun h => hnul (mem_append_left _ h), fun h => hnul (mem_append_right _ (mem_cons_of_mem _ h))⟩
  have hsome : (some ('.' :: ext)).isSome = true := rfl
  have hbuf :=
    shortBuffer_copied hdots (extension_of_append hname hext) nameLen_eq extLen_eq (by omega)
  rw [if_pos hsome] at hbuf
  refine ⟨?_, rest, ?_⟩
  · rw [hbuf, length_set, length_underscores, length_copied]
  · rw [hbuf, hrest, if_neg hne, append_assoc, cons_append, finished hnul'.1 hnul'.2]

theorem leaves_trailing (he : ext = []) :
    Leaves (name ++ '.' :: ext) (name.take 8) (hashStr (name ++ '.' :: ext)) := by
  have h := leaves_hash hdots hnul (extension_of_append hname hext) nameLen_eq
    (extLen_eq.trans (by rw [he]; rfl)) (.inr rfl)
  rwa [take_append_of_le_length (Nat.min_le_right _ _), ← take_take, take_length] at h

theorem leaves_shortened (hne : ext ≠ []) (hlong : 8 < name.length ∨ 3 < ext.length) :
    Leaves (name ++ '.' :: ext) (name.take 5 ++ hashStr (name ++ '.' :: ext)) (ext.take 3) := by
  have hlen : ext.length ≠ 0 := fun h => hne (List.length_eq_zero_iff.1 h)
  have hfirst : (strncpy (name ++ '.' :: ext) 12 ++ [nul]).take (min 5 name.length) =
      name.take 5 := by
    rw [take_copied _ (by simp) (by omega), take_append_of_le_length (Nat.min_le_right _ _),
      ← take_take, take_length]
  have hbase : (memcpy (strncpy (name ++ '.' :: ext) 12 ++ [nul]) (min 5 name.length)
      (hashStr (name ++ '.' :: ext) ++ [nul])).take (min 5 name.length + 3) =
        name.take 5 ++ hashStr (name ++ '.' :: ext) := by
    rw [memcpy, hfirst, ← append_assoc, append_assoc]
    exact take_left' (by rw [length_append, length_take]; rfl)
  have htake : ext.take (min 3 ext.length) = ext.take 3 := by
    rw [← take_take, take_length]
  rw [← hbase, ← htake]
  have hsize : (memcpy (strncpy (name ++ '.' :: ext) 12 ++ [nul]) (min 5 name.length)
      (hashStr (name ++ '.' :: ext) ++ [nul])).length = 13 := by
    have hhash : (hashStr (name ++ '.' :: ext) ++ [nul]).length = 4 := rfl
    rw [length_memcpy (by rw [length_copied, hhash]; omega), length_copied]
  refine leaves_of_shorten hdots (extension_of_append hname hext) nameLen_eq extLen_eq
    (hlong.imp_right .inl) (shorten_name _ _ _ hlen ext) hsize ?_ ?_ ?_ ?_
  · rw [hsize]
    omega
  · rw [hbase, mem_append]
    rintro (h | h)
    · exact hnul (mem_append_left _ (mem_of_mem_take h))
    · exact nul_notMem_hashStr _ h
  · exact fun h => hnul (mem_append_right _ (mem_cons_of_mem _ h))
  · rw [htake, ne_eq, take_eq_nil_iff]
    exact not_or.2 ⟨by decide, hne⟩

end

/-! ## Short names -/

/-- Every short name is made of a few characters of the source and of its hash. -/
theorem transformFileName_shape (hne : source ≠ []) (hnul : nul ∉ source)
    (hdots : ¬ IsDots source) :
    ∃ name ext, name ≠ [] ∧ name.length ≤ 8 ∧ ext.length ≤ 3 ∧
      (∀ c ∈ name ++ ext, c ∈ source ∨ c ∈ hashStr source) ∧ Leaves source name ext := by
  have htake : ∀ {s : Str} {n : ℕ}, s ≠ [] → n ≠ 0 → s.take n ≠ [] := fun hs hn h =>
    (List.take_eq_nil_iff.1 h).elim hn hs
  have hhash : ∀ s, (hashStr s).length ≤ 3 := fun _ => Nat.le_refl 3
  rcases extension_cases source with hext | ⟨name, ext, hname, hext, rfl⟩
  · rcases Nat.lt_or_ge 8 source.length with h8 | h8
    · rcases Nat.lt_or_ge source.length 12 with h12 | h12
      · refine ⟨_, _, htake hne (by decide), length_take_le 8 source, ?_, ?_,
          leaves_insert hdots hnul hext h8 h12⟩
        · rw [length_drop]
          omega
        · rw [take_append_drop]
          exact fun c hc => .inl hc
      · have hleaves := leaves_hash hdots hnul hext (Nat.sub_zero _) (if_pos rfl) (.inl h12)
        rw [Nat.min_eq_left (by omega)] at hleaves
        refine ⟨_, _, htake hne (by decide), length_take_le 8 source, hhash source,
          fun c hc => ?_, hleaves⟩
        exact (List.mem_append.1 hc).imp_left mem_of_mem_take
    · refine ⟨source, [], hne, h8, Nat.zero_le 3, fun c hc => .inl ?_,
        leaves_plain hdots hnul hext h8⟩
      rwa [append_nil] at hc
  · have hl : ∀ c ∈ name, c ∈ name ++ '.' :: ext := fun c hc => mem_append_left _ hc
    have hr : ∀ c ∈ ext, c ∈ name ++ '.' :: ext := fun c hc =>
      mem_append_right _ (mem_cons_of_mem _ hc)
    by_cases he : ext = []
    · refine ⟨_, _, htake hname (by decide), length_take_le 8 name, hhash _, fun c hc => ?_,
        leaves_trailing hdots hname hext hnul he⟩
      exact (List.mem_append.1 hc).imp_left fun h => hl c (mem_of_mem_take h)
    · by_cases hlong : 8 < name.length ∨ 3 < ext.length
      · refine ⟨_, _, by simp [hname], ?_, length_take_le 3 ext, fun c hc => ?_,
          leaves_shortened hdots hname hext hnul he hlong⟩
        · have h5 := length_take_le 5 name
          have h3 := hhash (name ++ '.' :: ext)
          rw [length_append]
          omega
        · rcases List.mem_append.1 hc with h | h
          · exact (List.mem_append.1 h).imp_left fun h => hl c (mem_of_mem_take h)
          · exact .inl (hr c (mem_of_mem_take h))
      · refine ⟨name, ext, hname, by omega, by omega, fun c hc => .inl ?_,
          leaves_fits hdots hname hext hnul (by omega) he (by omega)⟩
        exact (List.mem_append.1 hc).elim (hl c) (hr c)

theorem transformFileName_parts (hne : source ≠ []) (hnul : nul ∉ source)
    (hdots : ¬ IsDots source) :
    ∃ name ext, name ≠ [] ∧ name.length ≤ 8 ∧ ext.length ≤ 3 ∧ nul ∉ name ∧ nul ∉ ext ∧
      (∀ c ∈ name ++ ext, c ∈ source ∨ c ∈ hashStr source) ∧
      transformFileName source = short name ++ if ext = [] then [] else '.' :: short ext := by
  obtain ⟨name, ext, hname, h8, h3, hfrom, hleaves⟩ := transformFileName_shape hne hnul hdots
  have hnul' : nul ∉ name ++ ext := fun h =>
    (hfrom nul h).elim hnul (nul_notMem_hashStr source)
  obtain ⟨hnul1, hnul2⟩ := not_or.1 (List.mem_append.not.1 hnul')
  exact ⟨name, ext, hname, h8, h3, hnul1, hnul2, hfrom, hleaves.eq hdots hnul1 hnul2⟩

theorem transformFileName_ne_nil (hne : source ≠ []) (hnul : nul ∉ source) :
    transformFileName source ≠ [] := by
  by_cases hdots : IsDots source
  · rwa [transformFileName, if_pos hdots]
  · obtain ⟨name, ext, hname, -, -, -, -, -, heq⟩ := transformFileName_parts hne hnul hdots
    rw [heq, ne_eq, append_eq_nil_iff, short_eq_nil]
    exact fun h => hname h.1

theorem transformFileName_of_fits (hname : name ≠ []) (h8 : name.length ≤ 8)
    (h3 : ext.length ≤ 3) (hdot : '.' ∉ name) (hdot' : '.' ∉ ext) (hnul : nul ∉ name)
    (hnul' : nul ∉ ext) : transformFileName (name ++ if ext = [] then [] else '.' :: ext) =
      short name ++ if ext = [] then [] else '.' :: short ext := by
  have hdots : ∀ s : Str, ¬ IsDots (name ++ s) := by
    intro s h
    obtain ⟨c, cs, rfl⟩ := exists_cons_of_ne_nil hname
    rcases h with h | h
    all_goals exact hdot (by simp [(List.cons.inj h).1])
  split_ifs with he
  · rw [append_nil, append_nil]
    have hext : extension name = none := by
      rw [extension, strrchr_of_notMem hdot]
      rfl
    have hd := append_nil name ▸ hdots []
    have h := (leaves_plain hd hnul hext h8).eq hd hnul not_mem_nil
    rwa [if_pos rfl, append_nil] at h
  · have hmem : nul ∉ name ++ '.' :: ext := by
      rw [mem_append, mem_cons]
      rintro (h | h | h)
      · exact hnul h
      · exact absurd h (by decide)
      · exact hnul' h
    have h := (leaves_fits (hdots _) hname hdot' hmem h8 he h3).eq (hdots _) hnul hnul'
    rwa [if_neg he] at h

theorem transformFileName_transformFileName (hne : source ≠ []) (hnul : nul ∉ source) :
    transformFileName (transformFileName source) = transformFileName source := by
  by_cases hdots : IsDots source
  · have hself : transformFileName source = source := if_pos hdots
    rw [hself, hself]
  · obtain ⟨name, ext, hname, h8, h3, hnul1, hnul2, -, heq⟩ :=
      transformFileName_parts hne hnul hdots
    have hname' : short name ≠ [] := by simpa using hname
    have h3' : (short ext).length ≤ 3 := by simpa using h3
    have h := transformFileName_of_fits hname' (by simpa using h8) h3' (notMem_short (.inr rfl))
      (notMem_short (.inr rfl)) (nul_notMem_short hnul1) (nul_notMem_short hnul2)
    simp only [short_eq_nil, short_short] at h
    rw [heq]
    exact h

/-- One to eight characters and, behind a dot, one to three, without dots and spaces. -/
def EightThree (s : Str) : Prop :=
  ∃ name ext, 1 ≤ name.length ∧ name.length ≤ 8 ∧ '.' ∉ name ∧ ' ' ∉ name ∧
    (s = name ∨
      s = name ++ '.' :: ext ∧ 1 ≤ ext.length ∧ ext.length ≤ 3 ∧ '.' ∉ ext ∧ ' ' ∉ ext)

theorem eightThree_transformFileName (hne : source ≠ []) (hnul : nul ∉ source)
    (hdots : ¬ IsDots source) : EightThree (transformFileName source) := by
  obtain ⟨name, ext, hname, h8, h3, -, -, -, heq⟩ := transformFileName_parts hne hnul hdots
  have hpos := List.length_pos_iff.2 hname
  refine ⟨short name, short ext, by rwa [length_short], by simpa using h8, notMem_short (.inr rfl),
    notMem_short (.inl rfl), ?_⟩
  rw [heq]
  split_ifs with he
  · exact .inl (append_nil _)
  · have hpos' := List.length_pos_iff.2 he
    exact .inr ⟨rfl, by rwa [length_short], by simpa using h3, notMem_short (.inr rfl),
      notMem_short (.inl rfl)⟩

/-- Short names have the form 8+3, with a NUL within the buffer, and are their own short names. -/
theorem short_names (source : Str) (hne : source ≠ []) (hnul : nul ∉ source) :
    (shortBuffer source).length ≤ 13 ∧ nul ∈ shortBuffer source ∧
      transformFileName source = (text (shortBuffer source)).map Char.toUpper ∧
      (transformFileName source).length ≤ 12 ∧
      (if source = ['.'] ∨ source = ['.', '.'] then transformFileName source = source
        else EightThree (transformFileName source)) ∧
      (∀ c ∈ transformFileName source, c.isLower = false) ∧
      transformFileName (transformFileName source) = transformFileName source := by
  have hself := transformFileName_transformFileName hne hnul
  by_cases hdots : IsDots source
  · have hbuf : shortBuffer source = source ++ [nul] := if_pos hdots
    have heq : transformFileName source = source := if_pos hdots
    rw [hbuf, text_append hnul, heq, heq, if_pos hdots]
    refine ⟨?_, mem_append_right _ (mem_singleton_self _), ?_, ?_, rfl, ?_, rfl⟩
    · rcases hdots with rfl | rfl <;> decide
    · rcases hdots with rfl | rfl <;> rfl
    · rcases hdots with rfl | rfl <;> decide
    · intro c hc
      have hdot : c = '.' := by rcases hdots with rfl | rfl <;> simpa using hc
      rw [hdot]
      rfl
  · obtain ⟨name, ext, -, h8, h3, -, hsize, rest, hrest⟩ := transformFileName_shape hne hnul hdots
    have heq := transformFileName_eq hdots
    refine ⟨hsize.le, ?_, heq, ?_, ?_, ?_, hself⟩
    · rw [hrest]
      exact mem_append_right _ mem_cons_self
    · obtain ⟨name, ext, -, h8, h3, -, -, -, heq⟩ := transformFileName_parts hne hnul hdots
      rw [heq, length_append, length_short]
      split_ifs
      · rw [length_nil]
        omega
      · rw [length_cons, length_short]
        omega
    · rw [if_neg hdots]
      exact eightThree_transformFileName hne hnul hdots
    · intro c hc
      rw [heq] at hc
      obtain ⟨x, -, rfl⟩ := List.mem_map.1 hc
      exact Char.isLower_toUpper_eq_false x

theorem short_name_of_html : transformFileName "index.html".toList = "INDEX~7B.HTM".toList ∧
      transformFileName "INDEX~7B.HTM".toList = "INDEX~7B.HTM".toList := by
  have heq : transformFileName "index.html".toList = "INDEX~7B.HTM".toList := by decide +kernel
  obtain ⟨-, -, -, -, -, -, hself⟩ := short_names "index.html".toList (by decide) (by decide)
  exact ⟨heq, heq ▸ hself⟩

/-! ## Foreign characters -/

/-- A character that a short name can only have from its source. -/
def Foreign (d : Char) : Prop :=
  d ≠ nul ∧ d ≠ '.' ∧ d ≠ '_' ∧ d ≠ '~' ∧ d.isAlphanum = false
deriving Decidable

section
variable {d : Char}

variable {dest : Str}

theorem notMem_memcpy {src : Str} (i : ℕ) (hd : d ∉ dest) (hs : d ∉ src) :
    d ∉ memcpy dest i src := by
  unfold memcpy
  rw [mem_append, mem_append]
  rintro ((h | h) | h)
  · exact hd (mem_of_mem_take h)
  · exact hs h
  · exact hd (mem_of_mem_drop h)

theorem notMem_set {l : Str} (i : ℕ) {c : Char} (hl : d ∉ l) (hc : d ≠ c) : d ∉ l.set i c :=
  fun h => (mem_or_eq_of_mem_set h).elim hl hc

theorem strrchr_suffix {c : Char} {s t : Str} (h : strrchr c s = some t) : t <:+ s := by
  by_cases hc : c ∈ s
  · obtain ⟨a, b, rfl, hb⟩ := exists_last hc
    rw [strrchr_append hb] at h
    exact Option.some.inj h ▸ suffix_append a (c :: b)
  · rw [strrchr_of_notMem hc] at h
    cases h

variable (hd : Foreign d)
include hd

theorem notMem_strncpy {src : Str} (n : ℕ) (hs : d ∉ src) : d ∉ strncpy src n := by
  intro h
  rcases List.mem_append.1 (mem_of_mem_take h) with h | h
  · exact hs (mem_of_mem_take h)
  · exact hd.1 (eq_of_mem_replicate h)

variable {source : Str}

theorem notMem_shorten (nameLen extLen : ℕ) {dot : Option Str} (hs : d ∉ source) (hdest : d ∉ dest)
    (hdot : d ∉ dot.getD []) : d ∉ (shorten source dest nameLen extLen dot).1 := by
  have hend : ∀ {dest dot : Str} (n e : ℕ), d ∉ dest → d ∉ dot → d ∉ extend dest n dot e :=
    fun _ _ hdest hdot => notMem_set _ (notMem_memcpy _ (notMem_set _ hdest hd.2.1)
      (notMem_strncpy hd _ hdot)) hd.1
  have hhash := notMem_hashStr hd.2.2.2.1 hd.2.2.2.2 source
  unfold shorten
  split_ifs
  · exact hend _ _ hdest hhash
  · cases dot with
    | none => exact hend _ _ hdest fun h => hs (mem_of_mem_drop h)
    | some _ => exact hend _ _ hdest hhash
  · refine hend _ _ (notMem_memcpy _ hdest ?_) fun h => hdot (mem_of_mem_tail h)
    rw [mem_append, mem_singleton]
    exact fun h => h.elim hhash hd.1

theorem notMem_underscores (hdest : d ∉ dest) : d ∉ underscores dest := by
  unfold underscores
  rw [mem_append, mem_map]
  rintro (⟨c, hc, h⟩ | h)
  · split_ifs at h
    · exact hd.2.2.1 h.symm
    · exact hdest (h ▸ takeWhile_subset _ hc)
  · exact hdest ((dropWhile_suffix _).subset h)

theorem notMem_shortBuffer (hs : d ∉ source) : d ∉ shortBuffer source := by
  unfold shortBuffer
  by_cases hdots : IsDots source
  · rw [if_pos hdots, mem_append, mem_singleton]
    exact fun h => h.elim hs hd.1
  · rw [if_neg hdots]
    extract_lets dot nameLen extLen dest
    have hdot : d ∉ dot.getD [] := by
      cases h : dot with
      | none => exact not_mem_nil
      | some t =>
        have ht := (Option.filter_eq_some_iff.1 h).1
        exact fun hmem => hs ((strrchr_suffix ht).subset hmem)
    have hdest : d ∉ dest := by
      rw [mem_append, mem_singleton]
      exact fun h => h.elim (notMem_strncpy hd _ hs) hd.1
    -- whether the name was shortened or not
    generalize hbuf : (if 8 < nameLen ∨ 3 < extLen ∨ nameLen ≤ 8 ∧ extLen = 0 ∧ dot.isSome then
      shorten source dest nameLen extLen dot else (dest, nameLen, dot)) = buf
    have hb : d ∉ buf.1 := by
      rw [← hbuf]
      split_ifs
      · exact notMem_shorten hd _ _ hs hdest hdot
      · exact hdest
    dsimp only
    split_ifs
    · exact notMem_set _ (notMem_underscores hd hb) hd.2.1
    · exact notMem_underscores hd hb

theorem notMem_transformFileName (hs : d ∉ source) : d ∉ transformFileName source := by
  by_cases hdots : IsDots source
  · rwa [transformFileName, if_pos hdots]
  · rw [transformFileName_eq hdots]
    intro h
    obtain ⟨c, hc, heq⟩ := List.mem_map.1 h
    have halpha : d.isAlpha = false := (Bool.or_eq_false_iff.1 hd.2.2.2.2).1
    obtain rfl := (toUpper_eq_iff halpha).1 heq
    exact notMem_shortBuffer hd hs (takeWhile_subset _ hc)

end

/-! ## Resolution -/

theorem shortChar_toLower (c : Char) : shortChar c.toLower = shortChar c := by
  have hspace : c.toLower = ' ' ↔ c = ' ' := toLower_eq_iff (by decide)
  have hdot : c.toLower = '.' ↔ c = '.' := toLower_eq_iff (by decide)
  unfold shortChar underscore
  simp only [hspace, hdot]
  split_ifs
  · rfl
  · exact Char.toUpper_toLower_eq_toUpper c

theorem short_of_toLower {t : Str} (h : s.map toLower = t.map toLower) : short s = short t := by
  have hshort : ∀ s : Str, short (s.map toLower) = short s := by
    intro s
    unfold short
    rw [map_map]
    exact map_congr_left fun c _ => shortChar_toLower c
  rw [← hshort s, h, hshort t]

theorem notMem_of_toLower {t : Str} (h : s.map toLower = t.map toLower)
    (hd : d.isAlpha = false) (hs : d ∉ s) : d ∉ t := by
  intro ht
  have hmem : d.toLower ∈ s.map toLower := h ▸ mem_map_of_mem ht
  obtain ⟨c, hc, heq⟩ := List.mem_map.1 hmem
  rw [(toLower_eq_iff hd).2 rfl] at heq
  exact hs ((toLower_eq_iff hd).1 heq ▸ hc)

/-- Names that differ from a short name only in the case of their letters have that short name. -/
theorem transformFileName_of_toLower {n : Str} (hne : source ≠ []) (hnul : nul ∉ source)
    (h : (transformFileName source).map toLower = n.map toLower) :
    transformFileName n = transformFileName source := by
  by_cases hdots : IsDots source
  · have hself : transformFileName source = source := if_pos hdots
    have hdot : ∀ c : Char, '.' = c.toLower → c = '.' :=
      fun c hc => (toLower_eq_iff (by decide)).1 hc.symm
    rw [hself] at h ⊢
    obtain rfl : n = source := by
      rcases hdots with rfl | rfl
      · obtain ⟨c, rfl, hc⟩ := List.map_eq_singleton_iff.1 h.symm
        rw [hdot c hc.symm]
      · obtain ⟨c, t, rfl, hc, ht⟩ := List.map_eq_cons_iff.1 h.symm
        obtain ⟨c', rfl, hc'⟩ := List.map_eq_singleton_iff.1 ht
        rw [hdot c hc.symm, hdot c' hc'.symm]
    exact hself
  · obtain ⟨name, ext, hname, h8, h3, hnul1, hnul2, -, heq⟩ :=
      transformFileName_parts hne hnul hdots
    rw [heq, map_append] at h
    obtain ⟨n₁, n₂, rfl, h1, h2⟩ := List.map_eq_append_iff.1 h.symm
    obtain ⟨ext', rfl, hext⟩ : ∃ ext', n₂ = (if ext' = [] then [] else '.' :: ext') ∧
        (short ext).map toLower = ext'.map toLower := by
      split_ifs at h2 with he
      · exact ⟨[], by simpa using h2, by rw [he]; rfl⟩
      · obtain ⟨c, ext', rfl, hc, hext⟩ := List.map_eq_cons_iff.1 h2
        have hc' : c = '.' := (toLower_eq_iff (by decide)).1 hc
        have hne' : ext' ≠ [] := by
          rintro rfl
          exact he ((short_eq_nil ext).1 (List.map_eq_nil_iff.1 hext.symm))
        exact ⟨ext', by rw [if_neg hne', hc'], hext.symm⟩
    have hlen1 : n₁.length = name.length := by simpa using congrArg List.length h1
    have hlen2 : ext'.length = ext.length := by simpa using (congrArg List.length hext).symm
    have hn1 : n₁ ≠ [] := by
      rintro rfl
      exact hname (List.length_eq_zero_iff.1 hlen1.symm)
    rw [transformFileName_of_fits hn1 (by omega) (by omega)
      (notMem_of_toLower h1.symm (by decide) (notMem_short (.inr rfl)))
      (notMem_of_toLower hext (by decide) (notMem_short (.inr rfl)))
      (notMem_of_toLower h1.symm (by decide) (nul_notMem_short hnul1))
      (notMem_of_toLower hext (by decide) (nul_notMem_short hnul2)), heq,
      short_of_toLower h1, short_of_toLower hext.symm, short_short, short_short]
    simp only [← length_eq_zero_iff, hlen2]

theorem transformFileName_of_namesEntry (hne : source ≠ []) (hnul : nul ∉ source)
    {drv : Option ExtDrive} {e : Dirent} (h : namesEntry drv (transformFileName source) e) :
    transformFileName e.name.chars = transformFileName source := by
  rw [namesEntry, Bool.or_eq_true, Bool.and_eq_true] at h
  rcases h with ⟨-, hcase⟩ | hshort
  · exact transformFileName_of_toLower hne hnul (of_decide_eq_true hcase)
  · exact of_decide_eq_true hshort

/-- The entry `f` is found by its short name in a directory whose entries have different short
    names, on either kind of drive and whatever the order of the entries. -/
theorem short_name_resolves (host : Host) (drv : Option ExtDrive) (dir : Str)
    (entries : List Dirent) (hopen : (hostOpendir host dir).1 = .ok entries)
    (hnames : ∀ e ∈ entries, nul ∉ e.name.chars ∧ '*' ∉ e.name.chars ∧ '?' ∉ e.name.chars)
    (hshort : (entries.map fun e => transformFileName e.name.chars).Nodup)
    (hstat : ∀ n : FileName, host.stat (dir ++ n.chars) = none → ∃ e ∈ entries, e.name = n)
    (f : Dirent) (hf : f ∈ entries) :
    (getHostFileName host drv dir (transformFileName f.name.chars)).1 = f.name.chars := by
  obtain ⟨hnul, hstar, hquest⟩ := hnames f hf
  have hinj : ∀ e ∈ entries, transformFileName e.name.chars =
    transformFileName f.name.chars → e = f :=
    fun e he h => inj_on_of_nodup_map hshort he hf h
  have hmask : (transformFileName f.name.chars).any (fun c => c = '*' || c = '?') = false := by
    rw [any_eq_false]
    intro c hc h
    rcases (Bool.or_eq_true _ _).mp h with h | h
    · exact notMem_transformFileName (by decide) hstar (of_decide_eq_true h ▸ hc)
    · exact notMem_transformFileName (by decide) hquest (of_decide_eq_true h ▸ hc)
  unfold getHostFileName
  rw [if_neg (by rw [hmask]; decide)]
  cases hs : host.stat (dir ++ transformFileName f.name.chars) with
  | none =>
    -- the short name is the name of an entry, which has to be `f`
    have hne := transformFileName_ne_nil f.name.ne_nil hnul
    obtain ⟨e, he, hname⟩ := hstat ⟨_, hne, notMem_transformFileName (by decide) f.name.no_slash⟩ hs
    have hchars : e.name.chars = transformFileName f.name.chars := congrArg FileName.chars hname
    have hef := hinj e he (by rw [hchars, transformFileName_transformFileName f.name.ne_nil hnul])
    rw [← hchars, hef]
  | some err =>
    simp only [hopen]
    cases hfind : entries.find? (namesEntry drv (transformFileName f.name.chars)) with
    | some e =>
      have hnamed := transformFileName_of_namesEntry f.name.ne_nil hnul (List.find?_some hfind)
      rw [hinj e (List.mem_of_find?_eq_some hfind) hnamed]
    | none =>
      have hnot := List.find?_eq_none.1 hfind f hf
      exact absurd (by simp [namesEntry]) hnot

/-- Two pages that differ in their extensions. -/
def pages : List Dirent :=
  [⟨1, "index.html".toList, by decide, by decide⟩, ⟨2, "index.htm".toList, by decide, by decide⟩]

/-- The only directory is `/r/`, with the two pages. -/
def pageHost : Host :=
  { obliging with
    stat := fun path =>
      if pages.any (fun e => path = "/r/".toList ++ e.name.chars) then none else some .enoent
    opendir := fun _ => .ok pages }

theorem pages_resolve :
    (getHostFileName pageHost none "/r/".toList "INDEX~7B.HTM".toList).1 = "index.html".toList := by
  have hshort : transformFileName "index.html".toList = "INDEX~7B.HTM".toList := by decide +kernel
  have hstat : ∀ n : FileName, pageHost.stat ("/r/".toList ++ n.chars) = none →
      ∃ e ∈ pages, e.name = n := by
    intro n hn
    have hany : pages.any (fun e => "/r/".toList ++ n.chars = "/r/".toList ++ e.name.chars) =
        true := by
      by_contra h
      have hfail : pageHost.stat ("/r/".toList ++ n.chars) = some .enoent := if_neg h
      rw [hfail] at hn
      cases hn
    obtain ⟨e, he, heq⟩ := List.any_eq_true.1 hany
    refine ⟨e, he, ?_⟩
    obtain ⟨ino, name, hne, hslash⟩ := e
    obtain ⟨chars, hne', hslash'⟩ := n
    obtain rfl : chars = name := append_cancel_left (of_decide_eq_true heq)
    rfl
  rw [← hshort]
  exact short_name_resolves pageHost none _ pages rfl (by decide +kernel) (by decide +kernel) hstat
    ⟨1, "index.html".toList, by decide, by decide⟩ (by decide +kernel)

end Aranym.HostFs
