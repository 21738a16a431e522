/-
  What the walk reads and what it changes.

  The walk marks the descriptors it uses.  `Near` is equality of descriptors up to the
  bits `U` and `M`, and `Marked m₀ m` says that the tables `m` are `m₀` with such marks,
  none of them on an indirect descriptor, whose bits are all bits of an address.
-/
import Aranym.Lib.Fallible
import Aranym.Lib.Pages
import Aranym.Mmu.Atc

namespace Aranym.Mmu

open Lib BitVec Function

variable {c : Config} {m m₀ s t : Tables} {addr x y : U32} {super write : Bool}

/-! ## Descriptors -/

/-- The same descriptor up to `U` and `M`. -/
def Near (x y : U32) : Prop := x &&& ~~~0x18#32 = y &&& ~~~0x18#32
deriving Decidable

theorem Near.refl (x : U32) : Near x x := rfl

theorem Near.symm (h : Near x y) : Near y x := Eq.symm h

theorem Near.trans {z : U32} (h : Near x y) (h' : Near y z) : Near x z := Eq.trans h h'

theorem Near.and (h : Near x y) {k : U32} (hk : ~~~0x18#32 &&& k = k) : x &&& k = y &&& k := by
  rw [← hk, ← BitVec.and_assoc, ← BitVec.and_assoc, h]

theorem Near.invalid_iff (h : Near x y) {k : U32} (hk : ~~~0x18#32 &&& k = k) :
    x &&& k = 0 ↔ y &&& k = 0 := by rw [h.and hk]

theorem Near.or (h : Near x y) (z : U32) : Near (x ||| z) (y ||| z) := by
  unfold Near at h ⊢
  rw [BitVec.and_comm, BitVec.and_comm _ (~~~0x18#32)] at h ⊢
  rw [and_or_distrib_left, and_or_distrib_left, h]

variable {b : U32}

theorem near_or (hb : b &&& ~~~0x18#32 = 0#32) (x : U32) : Near (x ||| b) x := by
  unfold Near
  rw [BitVec.and_comm, and_or_distrib_left, BitVec.and_comm _ b, hb, or_zero, BitVec.and_comm]

/-! ## Words -/

/-- The word at an address: a register or a word of the tables. -/
def word (c : Config) (m : Tables) (addr : U32) : U32 :=
  if InHwRange (physAddr addr) then c.hwGetL (physAddr addr) else m (physAddr addr)

/-- The tables after a word has been stored. -/
def store (m : Tables) (addr l : U32) : Tables :=
  if InHwRange (physAddr addr) then m else Function.update m (physAddr addr) l

/-- A read is granted. -/
def Readable (c : Config) (super : Bool) (addr : U32) : Prop :=
  if InHwRange (physAddr addr) then c.hwModule (physAddr addr) = true
  else testRamBoundary c (physAddr addr) 4 super false = true
deriving Decidable

/-- A write is granted. -/
def Puttable (c : Config) (super : Bool) (addr : U32) : Prop :=
  if InHwRange (physAddr addr) then c.hwModule (physAddr addr) = true
  else testRamBoundary c (physAddr addr) 4 super true = true
deriving Decidable

/-- A word that can be written by whoever can read it. -/
def Writable (c : Config) (w : U32) : Prop :=
  ∀ super, testRamBoundary c w 4 super false = true → testRamBoundary c w 4 super true = true

variable {w : U32}

theorem writable_of_boundary (h : testRamBoundary c w 4 super true) : Writable c w := by
  intro super' h'
  unfold testRamBoundary at h h' ⊢
  split_ifs at h h' ⊢ <;> simp_all

theorem physGetLong_eq (c : Config) (super : Bool) (addr : U32) (m : Tables) :
    physGetLong c super addr m =
      if Readable c super addr then .ok (word c m addr) m else .error () m := by
  unfold physGetLong Readable word
  by_cases h : InHwRange (physAddr addr)
  · simp only [if_pos h]
  · simp only [if_neg h]

theorem physPutLong_eq (c : Config) (super : Bool) (addr l : U32) (m : Tables) :
    physPutLong c super addr l m =
      if Puttable c super addr then .ok () (store m addr l) else .error () m := by
  unfold physPutLong Puttable store
  by_cases h : InHwRange (physAddr addr)
  · simp only [if_pos h]
  · simp only [if_neg h]

theorem puttable_of_writable (hr : Readable c super addr) (hw : Writable c (physAddr addr)) :
    Puttable c super addr := by
  unfold Readable at hr
  unfold Puttable
  split_ifs at hr ⊢
  · exact hr
  · exact hw super hr

theorem store_word (m : Tables) (addr : U32) : store m addr (word c m addr) = m := by
  unfold store word
  split_ifs
  · rfl
  · exact update_eq_self _ _

/-! ## Marks -/

/-- `w` holds a page descriptor of some address. -/
def IsPageSlot (c : Config) (m : Tables) (w : U32) : Prop :=
  ∃ super addr root ptr,
    Readable c super (rootSlot c super addr) ∧ word c m (rootSlot c super addr) = root ∧
    root &&& 2 ≠ 0 ∧
    Readable c super (ptrSlot root addr) ∧ word c m (ptrSlot root addr) = ptr ∧ ptr &&& 2 ≠ 0 ∧
    physAddr (pageSlot c ptr addr) = w

/-- `w` holds an indirect page descriptor. -/
def IsIndirect (c : Config) (m : Tables) (w : U32) : Prop := m w &&& 3 = 2 ∧ IsPageSlot c m w

/-- `s` and `t` are the tables `m₀` up to marks, and where they differ the marks can be set and are
    not on an indirect descriptor. -/
structure Alike (c : Config) (m₀ s t : Tables) : Prop where
  near : ∀ w, Near (t w) (m₀ w)
  marks : ∀ w, s w = t w ∨ Near (s w) (t w) ∧ Writable c w ∧ ¬ IsIndirect c m₀ w

/-- The tables `m₀` with marks. -/
def Marked (c : Config) (m₀ m : Tables) : Prop := Alike c m₀ m m₀

theorem Marked.refl (m : Tables) : Marked c m m := ⟨fun _ => .refl _, fun _ => .inl rfl⟩

theorem Alike.word_near (h : Alike c m₀ s t) (addr : U32) :
    Near (word c s addr) (word c t addr) ∧ Near (word c t addr) (word c m₀ addr) := by
  unfold word
  split_ifs
  · exact ⟨.refl _, .refl _⟩
  · refine ⟨?_, h.near _⟩
    rcases h.marks (physAddr addr) with he | ⟨he, -⟩
    · rw [he]; exact .refl _
    · exact he

theorem Alike.word_cases (h : Alike c m₀ s t) (addr : U32) :
    word c s addr = word c t addr ∨ Writable c (physAddr addr) ∧ ¬ IsIndirect c m₀ (physAddr addr) ∧
      ¬ InHwRange (physAddr addr) := by
  unfold word
  split_ifs with hw
  · exact .inl rfl
  · rcases h.marks (physAddr addr) with he | ⟨-, he⟩
    · exact .inl he
    · exact .inr ⟨he.1, he.2, hw⟩

theorem Alike.store (h : Alike c m₀ s t) (hb : b &&& ~~~0x18#32 = 0#32) (addr : U32) :
    Alike c m₀ (store s addr (word c s addr ||| b)) (store t addr (word c t addr ||| b)) := by
  have hn := h.word_near addr
  have hcases := h.word_cases addr
  unfold Mmu.store
  split_ifs with hw
  · exact h
  · refine ⟨fun w => ?_, fun w => ?_⟩
    · by_cases hwa : w = physAddr addr
      · subst hwa
        rw [update_self]
        refine (near_or hb _).trans (hn.2.trans ?_)
        rw [word, if_neg hw]; exact Near.refl _
      · rw [update_of_ne hwa]; exact h.near w
    · by_cases hwa : w = physAddr addr
      · subst hwa
        rw [update_self, update_self]
        rcases hcases with he | ⟨h1, h2, -⟩
        · exact .inl (by rw [he])
        · exact .inr ⟨hn.1.or b, h1, h2⟩
      · rw [update_of_ne hwa, update_of_ne hwa]; exact h.marks w

theorem get_together (super : Bool) (addr : U32) :
    Together (Alike c m₀) (physGetLong c super addr) (physGetLong c super addr) fun a b s t =>
      Alike c m₀ s t ∧ a = word c s addr ∧ b = word c t addr ∧ Readable c super addr := by
  intro s t h
  rw [physGetLong_eq, physGetLong_eq]
  by_cases hr : Readable c super addr
  · rw [if_pos hr, if_pos hr]
    exact .inr ⟨_, s, _, t, rfl, rfl, h, rfl, rfl, hr⟩
  · rw [if_neg hr, if_neg hr]
    exact .inl ⟨(), s, (), t, rfl, rfl⟩

variable {d : U32}

theorem mark_ok (h : Puttable c super addr ∨ d &&& b = b) (s : Tables) :
    mark c super addr d b s = .ok () (if d &&& b = b then s else store s addr (d ||| b)) := by
  unfold mark
  by_cases hb : d &&& b = b
  · rw [if_neg (not_not.2 hb), if_pos hb]; rfl
  · rw [if_pos hb, if_neg hb, physPutLong_eq, if_pos (h.resolve_right hb)]

theorem mark_error (hp : ¬ Puttable c super addr) (hb : d &&& b ≠ b) (s : Tables) :
    mark c super addr d b s = .error () s := by
  rw [mark, if_pos hb, physPutLong_eq, if_neg hp]

theorem or_eq_of_and_eq (h : d &&& b = b) : d ||| b = d := by
  rw [← h, BitVec.or_comm]
  apply eq_of_getLsbD_eq
  intro i _
  rw [getLsbD_or, getLsbD_and]
  cases d.getLsbD i <;> simp

theorem mark_word (s : Tables) (h : Puttable c super addr ∨ word c s addr &&& b = b) :
    mark c super addr (word c s addr) b s = .ok () (store s addr (word c s addr ||| b)) := by
  rw [mark_ok h]
  split_ifs with hb
  · rw [or_eq_of_and_eq hb, store_word]
  · rfl

theorem mark_together {a : U32} :
    Together (fun s t => Alike c m₀ s t ∧ a = word c s addr ∧ b = word c t addr ∧
      Readable c super addr)
      (mark c super addr a 8) (mark c super addr b 8) fun _ _ => Alike c m₀ := by
  rintro s t ⟨h, rfl, rfl, hr⟩
  have hstore := h.store (b := 8) (by decide) addr
  by_cases hp : Puttable c super addr
  · exact .inr ⟨(), _, (), _, mark_word s (.inl hp), mark_word t (.inl hp), hstore⟩
  · -- the words are the same, so both walks mark, or none does
    have he : word c s addr = word c t addr :=
      (h.word_cases addr).resolve_right fun hw => hp (puttable_of_writable hr hw.1)
    by_cases hb : word c t addr &&& 8 = 8
    · exact .inr ⟨(), _, (), _, mark_word s (.inr (he ▸ hb)), mark_word t (.inr hb), hstore⟩
    · exact .inl ⟨(), s, (), t, mark_error hp (he ▸ hb) s, mark_error hp hb t⟩

/-! ## The walk on marked tables -/

theorem ptrSlot_near (h : Near x y) (addr : U32) : ptrSlot x addr = ptrSlot y addr := by
  rw [ptrSlot, ptrSlot, h.and (by decide)]

theorem pageSlot_near (h : Near x y) (addr : U32) : pageSlot c x addr = pageSlot c y addr := by
  rw [pageSlot, pageSlot, h.and (k := 0xffffff80#32) (by decide),
    h.and (k := 0xffffff00#32) (by decide)]

/-- The page descriptors that two walks have found. -/
structure SamePageDesc (c : Config) (m₀ : Tables) (super : Bool) (p q : PageDesc) (s t : Tables) :
    Prop where
  alike : Alike c m₀ s t
  descAddr : q.descAddr = p.descAddr
  desc : p.desc = word c s p.descAddr ∧ q.desc = word c t p.descAddr
  readable : Readable c super p.descAddr
  wp : p.wp &&& 4 = q.wp &&& 4

/-- The results of two walks down to the page descriptor. -/
def SameFetch (c : Config) (m₀ : Tables) (super : Bool) :
    Option PageDesc → Option PageDesc → Tables → Tables → Prop
  | none, none, _, _ => True
  | some p, some q, s, t => SamePageDesc c m₀ super p q s t
  | _, _, _, _ => False

theorem fetchPage_together {wp wp' ptr ptr' : U32} (hn : Near ptr ptr')
    (hwp : wp &&& 4 = wp' &&& 4) (hslot : IsPageSlot c m₀ (physAddr (pageSlot c ptr' addr))) :
    Together (Alike c m₀) (fetchPage c super addr wp ptr) (fetchPage c super addr wp' ptr')
      (SameFetch c m₀ super) := by
  unfold fetchPage
  rw [pageSlot_near hn]
  refine (get_together super _).bind fun a b => ?_
  rintro s t ⟨h, rfl, rfl, hr⟩
  have hnear := h.word_near (pageSlot c ptr' addr)
  by_cases hi : word c t (pageSlot c ptr' addr) &&& 3 = 2
  · -- an indirect descriptor has no marks
    have he : word c s (pageSlot c ptr' addr) = word c t (pageSlot c ptr' addr) := by
      refine (h.word_cases _).resolve_right ?_
      rintro ⟨-, hind, hram⟩
      refine hind ⟨?_, hslot⟩
      rw [hnear.2.and (by decide), word, if_neg hram] at hi
      exact hi
    rw [he, if_pos hi, if_pos hi]
    refine (get_together super _).bind (fun a b => ?_) s t h
    exact Together.pure fun s t ⟨h, ha, hb, hr⟩ => ⟨h, rfl, ⟨ha, hb⟩, hr, hwp⟩
  · have hi' : ¬ word c s (pageSlot c ptr' addr) &&& 3 = 2 := by rwa [hnear.1.and (by decide)]
    rw [if_neg hi, if_neg hi']
    exact .inr ⟨_, s, _, t, rfl, rfl, h, rfl, ⟨rfl, rfl⟩, hr, hwp⟩

theorem fetchPtr_together {root root' : U32} (hn : Near root root')
    (hslot : ∀ ptr', Readable c super (ptrSlot root' addr) →
      Near ptr' (word c m₀ (ptrSlot root' addr)) →
      ptr' &&& 2 ≠ 0 → IsPageSlot c m₀ (physAddr (pageSlot c ptr' addr))) :
    Together (Alike c m₀) (fetchPtr c super addr root) (fetchPtr c super addr root')
      (SameFetch c m₀ super) := by
  unfold fetchPtr
  rw [ptrSlot_near hn]
  refine (get_together super _).bind fun ptr ptr' => ?_
  refine Together.of_states fun s t ⟨h, hs, ht, hr⟩ => ?_
  have hnear := h.word_near (ptrSlot root' addr)
  rw [← hs, ← ht] at hnear
  refine Together.ite (hnear.1.invalid_iff (by decide)) (fun _ => ?_) (fun hv => ?_)
  · exact Together.pure fun _ _ _ => trivial
  · refine mark_together.bind fun _ _ => ?_
    refine fetchPage_together hnear.1 ?_ (hslot ptr' hr hnear.2 hv)
    exact ((hn.or ptr).trans (by
      rw [BitVec.or_comm root', BitVec.or_comm root']; exact hnear.1.or root')).and (by decide)

theorem fetchPageDesc_together (addr : U32) (super : Bool) :
    Together (Alike c m₀) (fetchPageDesc c addr super) (fetchPageDesc c addr super)
      (SameFetch c m₀ super) := by
  refine (get_together super _).bind fun root root' => ?_
  refine Together.of_states fun s t ⟨h, hs, ht, hr⟩ => ?_
  have hnear := h.word_near (rootSlot c super addr)
  rw [← hs, ← ht] at hnear
  refine Together.ite (hnear.1.invalid_iff (by decide)) (fun _ => ?_) (fun hv => ?_)
  · exact Together.pure fun _ _ _ => trivial
  · refine mark_together.bind fun _ _ => ?_
    refine fetchPtr_together hnear.1 fun ptr' hr' hptr hpv => ?_
    rw [ptrSlot_near hnear.2] at hr' hptr
    refine ⟨super, addr, _, _, hr, rfl, ?_, hr', rfl, ?_, ?_⟩
    · rwa [← hnear.2.and (by decide)]
    · rwa [← hptr.and (by decide)]
    · rw [pageSlot_near hptr]

theorem usedBits_near (h : Near x y) (write : Bool) : usedBits write x = usedBits write y := by
  unfold usedBits
  rw [h.and (k := 4) (by decide)]

theorem usedBits_cases (write : Bool) (d : U32) :
    (write = true ∧ d &&& 4 = 0) ∧ usedBits write d = 0x18 ∨
      ¬ (write = true ∧ d &&& 4 = 0) ∧ usedBits write d = 8 := by
  unfold usedBits
  split_ifs with h
  · exact .inl ⟨h, rfl⟩
  · exact .inr ⟨h, rfl⟩

theorem usedBits_marks (write : Bool) (d : U32) : usedBits write d &&& ~~~0x18#32 = 0#32 := by
  rcases usedBits_cases write d with ⟨-, h⟩ | ⟨-, h⟩ <;> rw [h] <;> decide

/-- The descriptor with the write protection of the tables. -/
def PageDesc.protected (p : PageDesc) : U32 := p.desc ||| (p.wp &&& 4)

variable {p : PageDesc}

theorem updatePageDesc_ok (c : Config) (super write : Bool) (hv : ¬ p.desc &&& 1 = 0)
    (h : Puttable c super p.descAddr ∨ p.protected &&& usedBits write p.protected
      = usedBits write p.protected) (s : Tables) :
    ∃ s', updatePageDesc c super write p s =
      .ok (p.protected ||| usedBits write p.protected) s' := by
  rw [updatePageDesc, if_neg hv]
  exact ⟨_, bind_of_ok _ (mark_ok h s)⟩

theorem updatePageDesc_error (hv : ¬ p.desc &&& 1 = 0) (hp : ¬ Puttable c super p.descAddr)
    (h : p.protected &&& usedBits write p.protected ≠ usedBits write p.protected) (s : Tables) :
    updatePageDesc c super write p s = .error () s := by
  rw [updatePageDesc, if_neg hv]
  exact bind_of_error _ (mark_error hp h s)

theorem updatePageDesc_together {q : PageDesc} :
    Together (SamePageDesc c m₀ super p q) (updatePageDesc c super write p)
      (updatePageDesc c super write q)
      fun a b _ _ => Near a b := by
  intro s t h
  have hnear : Near p.desc q.desc := by rw [h.desc.1, h.desc.2]; exact (h.alike.word_near _).1
  have hvalid : p.desc &&& 1 = 0 ↔ q.desc &&& 1 = 0 := hnear.invalid_iff (by decide)
  by_cases hv : q.desc &&& 1 = 0
  · have hv' := hvalid.2 hv
    rw [updatePageDesc, updatePageDesc, if_pos hv, if_pos hv']
    exact .inr ⟨_, s, _, t, rfl, rfl, hnear⟩
  · have hv' := mt hvalid.1 hv
    have hd : Near p.protected q.protected := by
      rw [PageDesc.protected, h.wp]; exact hnear.or _
    have hres : Near (p.protected ||| usedBits write p.protected)
        (q.protected ||| usedBits write q.protected) := by
      rw [usedBits_near hd write]; exact hd.or _
    by_cases hp : Puttable c super p.descAddr
    · obtain ⟨s', hs⟩ := updatePageDesc_ok c super write hv' (.inl hp) s
      obtain ⟨t', ht⟩ := updatePageDesc_ok c super write hv (.inl (h.descAddr ▸ hp)) t
      exact .inr ⟨_, s', _, t', hs, ht, hres⟩
    · -- the words are the same again
      have he : p.protected = q.protected := by
        rw [PageDesc.protected, PageDesc.protected, h.wp, h.desc.1, h.desc.2,
          (h.alike.word_cases _).resolve_right fun hw => hp (puttable_of_writable h.readable hw.1)]
      have hq : ¬ Puttable c super q.descAddr := h.descAddr ▸ hp
      by_cases hb : q.protected &&& usedBits write q.protected = usedBits write q.protected
      · obtain ⟨s', hs⟩ := updatePageDesc_ok c super write hv' (.inr (he ▸ hb)) s
        obtain ⟨t', ht⟩ := updatePageDesc_ok c super write hv (.inr hb) t
        exact .inr ⟨_, s', _, t', hs, ht, hres⟩
      · exact .inl ⟨(), s, (), t, updatePageDesc_error hv' hp (he ▸ hb) s,
          updatePageDesc_error hv hq hb t⟩

/-- **The walk on marked tables.** -/
theorem lookupPagetable_together (addr : U32) (super write : Bool) :
    Together (Alike c m₀) (lookupPagetable c addr super write) (lookupPagetable c addr super write)
      fun a b _ _ => Near a b := by
  refine (fetchPageDesc_together addr super).bind fun p q => ?_
  match p, q with
  | none, none => exact Together.pure fun _ _ _ => Near.refl _
  | some p, some q => exact updatePageDesc_together
  | none, some q => exact fun _ _ h => h.elim
  | some p, none => exact fun _ _ h => h.elim

/-! ## The marks of a walk -/

/-- A word that changes is one that can be written. -/
def Changed (c : Config) (s t : Tables) : Prop := ∀ w, t w ≠ s w → Writable c w

theorem Changed.refl (s : Tables) : Changed c s s := fun _ h => absurd rfl h

theorem Changed.trans {u : Tables} (h : Changed c s t) (h' : Changed c t u) : Changed c s u := by
  intro w hw
  by_cases ht : t w = s w
  · exact h' w (ht ▸ hw)
  · exact h w ht

theorem keeps_get (super : Bool) (addr : U32) : Keeps (physGetLong c super addr) (Changed c) := by
  intro s
  rw [after, physGetLong_eq]
  split_ifs <;> exact .refl s

theorem keeps_put (super : Bool) (addr l : U32) :
    Keeps (physPutLong c super addr l) (Changed c) := by
  intro s
  rw [after, physPutLong_eq]
  split_ifs with hp
  · intro w hw
    unfold store at hw
    unfold Puttable at hp
    split_ifs at hw hp
    · exact absurd rfl hw
    · by_cases hwa : w = physAddr addr
      · rw [hwa]; exact writable_of_boundary hp
      · exact absurd (update_of_ne hwa _ _) hw
  · exact .refl s

theorem keeps_mark (super : Bool) (addr d b : U32) : Keeps (mark c super addr d b) (Changed c) := by
  unfold mark
  split_ifs
  · exact keeps_put super addr _
  · exact .pure .refl ()

theorem keeps_lookupPagetable (addr : U32) (super write : Bool) :
    Keeps (lookupPagetable c addr super write) (Changed c) := by
  have htrans : ∀ s t u, Changed c s t → Changed c t u → Changed c s u := fun _ _ _ => Changed.trans
  have hpage : ∀ wp ptr, Keeps (fetchPage c super addr wp ptr) (Changed c) := by
    intro wp ptr
    refine (keeps_get super _).bind (fun desc => ?_) htrans
    split_ifs
    · exact (keeps_get super _).bind (fun _ => Keeps.pure Changed.refl _) htrans
    · exact Keeps.pure Changed.refl _
  have hptr : ∀ root, Keeps (fetchPtr c super addr root) (Changed c) := by
    intro root
    refine (keeps_get super _).bind (fun ptr => ?_) htrans
    split_ifs
    · exact Keeps.pure Changed.refl _
    · exact (keeps_mark super _ _ _).bind (fun _ => hpage _ _) htrans
  have hroot : Keeps (fetchPageDesc c addr super) (Changed c) := by
    refine (keeps_get super _).bind (fun root => ?_) htrans
    split_ifs
    · exact Keeps.pure Changed.refl _
    · exact (keeps_mark super _ _ _).bind (fun _ => hptr _) htrans
  refine hroot.bind (fun p => ?_) htrans
  match p with
  | none => exact Keeps.pure Changed.refl _
  | some p =>
    show Keeps (updatePageDesc c super write p) (Changed c)
    unfold updatePageDesc
    split_ifs
    · exact Keeps.pure Changed.refl _
    · exact (keeps_mark super _ _ _).bind (fun _ => Keeps.pure Changed.refl _) htrans

/-- The changes are in the bits `U` and `M`, and not in an indirect descriptor. -/
def Harmless (c : Config) (s t : Tables) : Prop :=
  ∀ w, t w ≠ s w → Near (t w) (s w) ∧ ¬ IsIndirect c s w

theorem Marked.isPageSlot (h : Marked c m₀ m) (hw : IsPageSlot c m₀ w) : IsPageSlot c m w := by
  obtain ⟨super, addr, _, _, hr, rfl, hv, hr', rfl, hv', rfl⟩ := hw
  have hroot := (h.word_near (rootSlot c super addr)).1
  have hslot := ptrSlot_near hroot addr
  have hptr := (h.word_near (ptrSlot (word c m₀ (rootSlot c super addr)) addr)).1
  refine ⟨super, addr, _, _, hr, rfl, ?_, ?_, rfl, ?_, ?_⟩
  · rwa [hroot.and (by decide)]
  · rwa [hslot]
  · rwa [hslot, hptr.and (by decide)]
  · rw [hslot, pageSlot_near hptr]

theorem Marked.near (h : Marked c m₀ m) (w : U32) : Near (m w) (m₀ w) := by
  rcases h.marks w with he | ⟨he, -⟩
  · rw [he]; exact .refl _
  · exact he

theorem Marked.isIndirect (h : Marked c m₀ m) (hw : IsIndirect c m₀ w) : IsIndirect c m w := by
  refine ⟨?_, h.isPageSlot hw.2⟩
  rw [(h.near w).and (by decide)]; exact hw.1

/-- **Harmless marks keep the tables marked.** -/
theorem Marked.after {m' : Tables} (h : Marked c m₀ m) (hc : Changed c m m')
    (hh : Harmless c m m') : Marked c m₀ m' := by
  refine ⟨fun w => .refl _, fun w => ?_⟩
  by_cases hw : m' w = m w
  · rw [hw]; exact h.marks w
  · obtain ⟨hn, hi⟩ := hh w hw
    exact .inr ⟨hn.trans (h.near w), hc w hw, fun hind => hi (h.isIndirect hind)⟩

end Aranym.Mmu
