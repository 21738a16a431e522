/-
  What a table walk leaves in memory.

  The walk should set `U` in each descriptor of its `trail`, and `M` in the page
  descriptor for a write that no level forbids.  `mmu_lookup_pagetable` puts the
  `W` bits of the tables into the descriptor before it stores it, so that a page
  descriptor whose `U` is clear gets the `W` of the tables above it.
-/
import Aranym.Mmu.Transparency

namespace Aranym.Mmu

open Lib BitVec

variable {c : Config} {m s : Tables} {addr x : U32} {super write : Bool}

/-! ## The descriptors of a walk -/

/-- The tables with `U` set in the descriptor at an address. -/
def markUsed (c : Config) (m : Tables) (addr : U32) : Tables := store m addr (word c m addr ||| 8)

/-- What a walk reads. -/
structure Trail where
  rootAddr : U32
  root : U32
  ptrAddr : U32
  ptr : U32
  pageAddr : U32
  page : U32
  deriving DecidableEq

/-- The tables when the walk comes to the page descriptor. -/
def tablesMarked (c : Config) (m : Tables) (addr : U32) (super : Bool) : Tables :=
  let rootAddr := rootSlot c super addr
  markUsed c (markUsed c m rootAddr) (ptrSlot (word c m rootAddr) addr)

/-- The descriptors, each as it is when the walk comes to it. -/
def trail (c : Config) (m : Tables) (addr : U32) (super : Bool) : Trail :=
  let rootAddr := rootSlot c super addr
  let root := word c m rootAddr
  let ptrAddr := ptrSlot root addr
  let ptr := word c (markUsed c m rootAddr) ptrAddr
  let m := tablesMarked c m addr super
  let slot := pageSlot c ptr addr
  let desc := word c m slot
  let pageAddr := if desc &&& 3 = 2 then desc &&& 0xfffffffc else slot
  { rootAddr, root, ptrAddr, ptr, pageAddr, page := word c m pageAddr }

variable (t : Trail)

namespace Trail

/-- The root table descriptor is valid. -/
def RootUsed : Prop := t.root &&& 2 ≠ 0
deriving Decidable

/-- The pointer table is valid. -/
def PtrUsed : Prop := t.RootUsed ∧ t.ptr &&& 2 ≠ 0
deriving Decidable

/-- The page is resident. -/
def PageUsed : Prop := t.PtrUsed ∧ t.page &&& 1 ≠ 0
deriving Decidable

/-- The word of the page descriptor. -/
def IsPage (w : U32) : Prop := w = physAddr t.pageAddr ∧ t.PageUsed

/-- The words of the tables' descriptors. -/
def IsTable (w : U32) : Prop :=
  w = physAddr t.rootAddr ∧ t.RootUsed ∨ w = physAddr t.ptrAddr ∧ t.PtrUsed

/-- No level has `W` set. -/
def Permits : Prop := (t.root ||| t.ptr ||| t.page) &&& 4 = 0
deriving Decidable

/-- The walk leaves `U` in the descriptors it uses and, for a write that is permitted, `M` in that
    of the page. -/
def MarksOnly (write : Bool) (m m' : Tables) : Prop :=
  ∀ w, m' w = m w ∨ (t.IsTable w ∨ t.IsPage w) ∧ m' w = m w ||| 8 ∨
    t.IsPage w ∧ (write = true ∧ t.Permits) ∧ m' w = m w ||| 0x18

/-- `U` and `M` are set where they should be. -/
def SetsMarks (write : Bool) (m' : Tables) : Prop :=
  ∀ w, ¬ InHwRange w → (t.IsTable w ∨ t.IsPage w → (m' w).getLsbD 3 = true) ∧
    (t.IsPage w → write = true → t.Permits → (m' w).getLsbD 4 = true)

/-- The page descriptor is stored with a `W` that it did not have. -/
def StoresW : Prop :=
  t.PageUsed ∧ (t.root ||| t.ptr) &&& 4 ≠ 0 ∧ t.page &&& 4 = 0 ∧ t.page &&& 8 = 0 ∧
    ¬ InHwRange (physAddr t.pageAddr)
deriving Decidable

end Trail

/-! ## Marked tables -/

/-- `s` is `m` with `U` set in words of `S`. -/
def MarkedIn (S : Set U32) (m s : Tables) : Prop := ∀ w, s w = m w ∨ w ∈ S ∧ s w = m w ||| 8

theorem MarkedIn.refl (S : Set U32) (m : Tables) : MarkedIn S m m := fun _ => .inl rfl

theorem MarkedIn.trans {S : Set U32} {u : Tables} (h : MarkedIn S m s) (h' : MarkedIn S s u) :
    MarkedIn S m u := by
  intro w
  rcases h w with h1 | ⟨hw, h1⟩ <;> rcases h' w with h2 | ⟨hw', h2⟩
  · exact .inl (h2.trans h1)
  · exact .inr ⟨hw', by rw [h2, h1]⟩
  · exact .inr ⟨hw, by rw [h2, h1]⟩
  · exact .inr ⟨hw, by rw [h2, h1, BitVec.or_assoc, BitVec.or_self]⟩

variable {l : U32}

theorem store_of_ne {w : U32} (h : w ≠ physAddr addr) : store m addr l w = m w := by
  unfold store
  split_ifs
  · rfl
  · exact Function.update_of_ne h _ _

theorem store_self (h : ¬ InHwRange (physAddr addr)) : store m addr l (physAddr addr) = l := by
  rw [store, if_neg h, Function.update_self]

theorem word_of_ram (h : ¬ InHwRange (physAddr addr)) : word c m addr =
    m (physAddr addr) := if_neg h

theorem store_of_hw (h : InHwRange (physAddr addr)) : store m addr l = m := if_pos h

theorem markedIn_markUsed (c : Config) (m : Tables) (addr : U32) :
    MarkedIn {physAddr addr} m (markUsed c m addr) := by
  intro w
  unfold markUsed
  by_cases hhw : InHwRange (physAddr addr)
  · rw [store_of_hw hhw]
    exact .inl rfl
  · by_cases hw : w = physAddr addr
    · subst hw
      rw [store_self hhw, word_of_ram hhw]
      exact .inr ⟨rfl, rfl⟩
    · exact .inl (store_of_ne hw)

theorem MarkedIn.mono {S T : Set U32} (h : MarkedIn S m s) (hST : S ⊆ T) : MarkedIn T m s :=
  fun w => (h w).imp_right fun hw => ⟨hST hw.1, hw.2⟩

/-- Bits that are set stay set. -/
def Grows (m m' : Tables) : Prop := ∀ w i, (m w).getLsbD i = true → (m' w).getLsbD i = true

theorem Grows.trans {u : Tables} (h : Grows m s) (h' : Grows s u) : Grows m u :=
  fun w i hi => h' w i (h w i hi)

theorem grows_store (h : word c m addr ||| x = l) : Grows m (store m addr l) := by
  intro w i hi
  by_cases hhw : InHwRange (physAddr addr)
  · rwa [store_of_hw hhw]
  · by_cases hw : w = physAddr addr
    · subst hw
      rw [store_self hhw, ← h, word_of_ram hhw, getLsbD_or, hi, Bool.true_or]
    · rwa [store_of_ne hw]

theorem grows_markUsed (c : Config) (m : Tables) (addr : U32) : Grows m (markUsed c m addr) :=
  grows_store rfl

theorem used_markUsed (h : ¬ InHwRange (physAddr addr)) :
    (markUsed c m addr (physAddr addr)).getLsbD 3 = true := by
  rw [markUsed, store_self h, getLsbD_or]
  simp

/-! ## The walk -/

theorem mark_used_cases (c : Config) (super : Bool) (addr : U32) (s : Tables) :
    mark c super addr (word c s addr) 8 s = .ok () (markUsed c s addr) ∨
      mark c super addr (word c s addr) 8 s = .error () s := by
  by_cases h : Puttable c super addr ∨ word c s addr &&& 8 = 8
  · exact .inl (mark_word s h)
  · exact .inr (mark_error (fun hp => h (.inl hp)) (fun hb => h (.inr hb)) s)

/-- The address of the page descriptor, behind an indirect one. -/
def pageDescAddr (c : Config) (ptr addr : U32) (s : Tables) : U32 :=
  let desc := word c s (pageSlot c ptr addr)
  if desc &&& 3 = 2 then desc &&& 0xfffffffc else pageSlot c ptr addr

theorem fetchPage_cases (c : Config) (super : Bool) (addr wp ptr : U32) (s : Tables) :
    fetchPage c super addr wp ptr s = .error () s ∨ fetchPage c super addr wp ptr s =
        .ok (some ⟨pageDescAddr c ptr addr s, word c s (pageDescAddr c ptr addr s), wp⟩) s := by
  have hget := physGetLong_eq c super (pageSlot c ptr addr) s
  by_cases hr : Readable c super (pageSlot c ptr addr)
  · rw [if_pos hr] at hget
    rw [fetchPage, bind_of_ok _ hget, pageDescAddr]
    by_cases hi : word c s (pageSlot c ptr addr) &&& 3 = 2
    · rw [if_pos hi, if_pos hi]
      have hget' := physGetLong_eq c super (word c s (pageSlot c ptr addr) &&& 0xfffffffc) s
      by_cases hr' : Readable c super (word c s (pageSlot c ptr addr) &&& 0xfffffffc)
      · rw [if_pos hr'] at hget'
        exact .inr (bind_of_ok _ hget')
      · rw [if_neg hr'] at hget'
        exact .inl (bind_of_error _ hget')
    · rw [if_neg hi, if_neg hi]
      exact .inr rfl
  · rw [if_neg hr] at hget
    exact .inl (bind_of_error _ hget)

/-- From a table descriptor on: it cannot be read or marked, or is invalid, or the walk goes on. -/
theorem table_cases {α : Type} (c : Config) (super : Bool) (addr : U32)
    (f : U32 → TableM (Option α)) (s : Tables) :
    let x : TableM (Option α) := do
      let desc ← physGetLong c super addr
      if desc &&& 2 = 0 then return none else
        mark c super addr desc 8
        f desc
    x s = .error () s ∨ word c s addr &&& 2 = 0 ∧ x s = .ok none s ∨
      word c s addr &&& 2 ≠ 0 ∧ x s = f (word c s addr) (markUsed c s addr) := by
  intro x
  have hget := physGetLong_eq c super addr s
  by_cases hr : Readable c super addr
  · rw [if_pos hr] at hget
    have hx : x s = _ := bind_of_ok _ hget
    rw [hx]
    by_cases hv : word c s addr &&& 2 = 0
    · rw [if_pos hv]
      exact .inr (.inl ⟨hv, rfl⟩)
    · rw [if_neg hv]
      rcases mark_used_cases c super addr s with hm | hm
      · exact .inr (.inr ⟨hv, bind_of_ok _ hm⟩)
      · exact .inl (bind_of_error _ hm)
  · rw [if_neg hr] at hget
    exact .inl (bind_of_error _ hget)

/-- What the first part of the walk leaves: marks on valid table descriptors. -/
structure Fetched (t : Trail) (m s : Tables) : Prop where
  marked : MarkedIn {w | t.IsTable w} m s
  grows : Grows m s

/-- The table descriptors in use are marked. -/
def UsedMarked (t : Trail) (s : Tables) : Prop :=
  ∀ w, t.IsTable w → ¬ InHwRange w → (s w).getLsbD 3 = true

section
variable (c m addr super)

theorem fetched_root (h : (trail c m addr super).RootUsed) :
    Fetched (trail c m addr super) m (markUsed c m (rootSlot c super addr)) where
  marked := (markedIn_markUsed c m _).mono fun _ hw => .inl ⟨hw, h⟩
  grows := grows_markUsed c m _

theorem fetched_ptr (h : (trail c m addr super).PtrUsed) :
    Fetched (trail c m addr super) m (tablesMarked c m addr super) where
  marked := (fetched_root c m addr super h.1).marked.trans
    ((markedIn_markUsed c _ _).mono fun _ hw => .inr ⟨hw, h⟩)
  grows := (fetched_root c m addr super h.1).grows.trans (grows_markUsed c _ _)

/-- **The first part of the walk.**  It throws, or ends at an invalid table descriptor, or comes to
    the page descriptor. -/
theorem fetchPageDesc_trail :
    let t := trail c m addr super
    (∃ s, fetchPageDesc c addr super m = .error () s ∧ Fetched t m s) ∨
    (∃ s, fetchPageDesc c addr super m = .ok none s ∧ Fetched t m s ∧ UsedMarked t s ∧
      ¬ t.PtrUsed) ∨
    (fetchPageDesc c addr super m =
      .ok (some ⟨t.pageAddr, t.page, t.root ||| t.ptr⟩) (tablesMarked c m addr super) ∧
      Fetched t m (tablesMarked c m addr super) ∧ UsedMarked t (tablesMarked c m addr super) ∧
        t.PtrUsed) := by
  intro t
  have hnone : Fetched t m m := ⟨MarkedIn.refl _ m, fun _ _ h => h⟩
  rcases table_cases c super (rootSlot c super addr)
    (fetchPtr c super addr) m with he | ⟨hv, he⟩ | ⟨hv, he⟩
  · exact .inl ⟨m, he, hnone⟩
  · refine .inr (.inl ⟨m, he, hnone, ?_, fun h => h.1 hv⟩)
    rintro w (⟨-, h⟩ | ⟨-, h⟩) -
    · exact absurd hv h
    · exact absurd hv h.1
  have hroot : t.RootUsed := hv
  rcases table_cases c super (ptrSlot t.root addr)
    (fun ptr => fetchPage c super addr (t.root ||| ptr) ptr)
    (markUsed c m (rootSlot c super addr)) with he' | ⟨hv', he'⟩ | ⟨hv', he'⟩
  · exact .inl ⟨_, he.trans he', fetched_root c m addr super hroot⟩
  · refine .inr (.inl ⟨_, he.trans he', fetched_root c m addr super hroot, ?_, fun h => h.2 hv'⟩)
    rintro w (⟨rfl, -⟩ | ⟨-, h⟩) hw
    · exact used_markUsed hw
    · exact absurd hv' h.2
  have hptr : t.PtrUsed := ⟨hroot, hv'⟩
  have hfetched := fetched_ptr c m addr super hptr
  rcases fetchPage_cases c super addr (t.root ||| t.ptr) t.ptr
    (tablesMarked c m addr super) with he'' | he''
  · exact .inl ⟨_, he.trans (he'.trans he''), hfetched⟩
  · refine .inr (.inr ⟨he.trans (he'.trans he''), hfetched, ?_, hptr⟩)
    rintro w (⟨rfl, -⟩ | ⟨rfl, -⟩) hw
    · exact grows_markUsed c _ _ _ 3 (used_markUsed hw)
    · exact used_markUsed hw

end

/-! ## The page descriptor -/

theorem and_w_iff (x : U32) : x &&& 4 = 0 ↔ x.getLsbD 2 = false := and_bit_eq_zero (j := 2)

theorem and_u_iff (x : U32) : x &&& 8 = 0 ↔ x.getLsbD 3 = false := and_bit_eq_zero (j := 3)

theorem protected_w (p : PageDesc) : p.protected &&& 4 = 0 ↔ (p.wp ||| p.desc) &&& 4 = 0 := by
  rw [and_w_iff, and_w_iff, PageDesc.protected, getLsbD_or, getLsbD_or, getLsbD_and, Bool.or_comm]
  simp

theorem getLsbD_protected (p : PageDesc) {i : ℕ} (hi : i ≠ 2) :
    p.protected.getLsbD i = p.desc.getLsbD i := by
  have h4 : (4 : U32).getLsbD i = false := by
    rw [show (4 : U32) = 1#32 <<< 2 from rfl, getLsbD_bit, decide_eq_false hi, Bool.and_false]
  rw [PageDesc.protected, getLsbD_or, getLsbD_and, h4, Bool.and_false, Bool.or_false]

theorem protected_of_same {p : PageDesc} (h : p.wp &&& 4 ≠ 0 → p.desc &&& 4 ≠ 0) :
    p.protected = p.desc := by
  refine eq_of_getLsbD_eq fun i _ => ?_
  by_cases hi : i = 2
  · subst hi
    rw [PageDesc.protected, getLsbD_or, getLsbD_and]
    rw [Ne, Ne, and_w_iff, and_w_iff, Bool.not_eq_false, Bool.not_eq_false] at h
    cases hw : p.wp.getLsbD 2 with
    | false => simp
    | true => simp [h hw]
  · exact getLsbD_protected p hi

theorem used_of_usedBits {d : U32} (h : d &&& usedBits write d = usedBits write d) :
    d.getLsbD 3 = true := by
  have hbit := congrArg (fun v : U32 => v.getLsbD 3) h
  rcases usedBits_cases write d with ⟨-, hb⟩ | ⟨-, hb⟩
  all_goals
    rw [hb] at hbit
    simpa using hbit

theorem modified_of_usedBits {d : U32} (h : d &&& usedBits true d = usedBits true d)
    (hw : d &&& 4 = 0) : d.getLsbD 4 = true := by
  have hb : usedBits true d = 0x18 := if_pos ⟨rfl, hw⟩
  have hbit := congrArg (fun v : U32 => v.getLsbD 4) h
  rw [hb] at hbit
  simpa using hbit

theorem updatePageDesc_cases (c : Config) (super write : Bool) {p : PageDesc}
    (hv : ¬ p.desc &&& 1 = 0) (s : Tables) :
    let d := p.protected
    let b := usedBits write d
    d &&& b = b ∧ updatePageDesc c super write p s = .ok (d ||| b) s ∨
      d &&& b ≠ b ∧ (updatePageDesc c super write p s = .error () s ∨
        updatePageDesc c super write p s = .ok (d ||| b) (store s p.descAddr (d ||| b))) := by
  intro d b
  rw [updatePageDesc, if_neg hv]
  by_cases hb : d &&& b = b
  · have hm : mark c super p.descAddr d b s = .ok () _ := mark_ok (.inr hb) s
    rw [if_pos hb] at hm
    exact .inl ⟨hb, bind_of_ok _ hm⟩
  · refine .inr ⟨hb, ?_⟩
    by_cases hp : Puttable c super p.descAddr
    · have hm := mark_ok (.inl hp) (d := d) (b := b) s
      rw [if_neg hb] at hm
      exact .inr (bind_of_ok _ hm)
    · exact .inl (bind_of_error _ (mark_error hp hb s))

/-! ## The effects of a walk -/

section
variable {t : Trail} {m' : Tables}

theorem Fetched.marksOnly (h : Fetched t m s) (write : Bool) : t.MarksOnly write m s := by
  intro w
  rcases h.marked w with he | ⟨hw, he⟩
  · exact .inl he
  · exact .inr (.inl ⟨.inl hw, he⟩)

theorem setsMarks_of_table (h : UsedMarked t s) (ht : ¬ t.PageUsed) (write : Bool) :
    t.SetsMarks write s := by
  intro w hw
  refine ⟨?_, fun hp => absurd hp.2 ht⟩
  rintro (h' | hp)
  · exact h w h' hw
  · exact absurd hp.2 ht

theorem Trail.MarksOnly.getLsbD_w (h : t.MarksOnly write m m') (w : U32) :
    (m' w).getLsbD 2 = (m w).getLsbD 2 := by
  rcases h w with he | ⟨-, he⟩ | ⟨-, -, he⟩
  · rw [he]
  all_goals
    rw [he, getLsbD_or]
    simp

end

/-- The page descriptor that the first part of the walk returns. -/
def Trail.pageDesc (t : Trail) : PageDesc := ⟨t.pageAddr, t.page, t.root ||| t.ptr⟩

/-- The bits that the second part sets. -/
def Trail.bits (t : Trail) (write : Bool) : U32 := usedBits write t.pageDesc.protected

/-- What the second part stores. -/
def Trail.stored (t : Trail) (write : Bool) : U32 := t.pageDesc.protected ||| t.bits write

/-- The first part of the walk has come to a resident page, with the tables `s`. -/
structure AtPage (c : Config) (t : Trail) (m s : Tables) : Prop where
  fetched : Fetched t m s
  used : UsedMarked t s
  page : t.page = word c s t.pageAddr
  resident : t.PageUsed

section Page
variable {t : Trail}

theorem permits_iff (t : Trail) : t.pageDesc.protected &&& 4 = 0 ↔ t.Permits :=
  protected_w t.pageDesc

theorem Trail.Permits.tables (h : t.Permits) : (t.root ||| t.ptr) &&& 4 = 0 := by
  rw [Trail.Permits, and_w_iff, getLsbD_or, Bool.or_eq_false_iff] at h
  exact (and_w_iff _).2 h.1

theorem bits_cases (t : Trail) (write : Bool) :
    (write = true ∧ t.Permits) ∧ t.bits write = 0x18 ∨ ¬ (write = true ∧ t.Permits) ∧
    t.bits write = 8 := by
  rw [← permits_iff]
  exact usedBits_cases write t.pageDesc.protected

/-- A page descriptor that gets a `W` by its tables is stored with it only if its `U` is clear. -/
theorem protected_eq_page (h : t.PageUsed) (hhw : ¬ InHwRange (physAddr t.pageAddr))
    (hs : ¬ t.StoresW) (hb : t.pageDesc.protected &&& t.bits write ≠ t.bits write) :
    t.pageDesc.protected = t.page := by
  refine protected_of_same fun hwp hd => ?_
  have hu : t.page &&& 8 ≠ 0 := fun hu => hs ⟨h, hwp, hd, hu, hhw⟩
  have hnot : ¬ t.Permits := fun hp => hwp hp.tables
  have hbits : t.bits write = 8 := by
    rcases bits_cases t write with ⟨hp, -⟩ | ⟨-, h8⟩
    · exact absurd hp.2 hnot
    · exact h8
  rw [hbits] at hb
  refine hb ?_
  have h3 : t.pageDesc.protected.getLsbD 3 = true := by
    rw [getLsbD_protected _ (by decide)]
    exact Bool.not_eq_false _ ▸ (and_u_iff t.page).not.1 hu
  rw [show (8 : U32) = BitVec.twoPow 32 3 from rfl, and_twoPow, h3]
  rfl

theorem or_bits_of_marked {y b : U32} (h : y = x ∨ y = x ||| 8) (hb : b = 0x18 ∨ b = 8) :
    y ||| b = x ||| b := by
  rcases h with rfl | rfl
  · rfl
  · rcases hb with rfl | rfl
    · rw [BitVec.or_assoc]
      rfl
    · rw [BitVec.or_assoc]
      rfl

theorem AtPage.marksOnly_store (h : AtPage c t m s) (hs : ¬ t.StoresW)
    (hb : t.pageDesc.protected &&& t.bits write ≠ t.bits write) :
    t.MarksOnly write m (store s t.pageAddr (t.stored write)) := by
  intro w
  by_cases hhw : InHwRange (physAddr t.pageAddr)
  · rw [store_of_hw hhw]
    exact h.fetched.marksOnly write w
  · by_cases hw : w = physAddr t.pageAddr
    · subst hw
      have hmark : t.page = m (physAddr t.pageAddr) ∨ t.page = m (physAddr t.pageAddr) ||| 8 := by
        rw [h.page, word_of_ram hhw]
        exact (h.fetched.marked _).imp_right And.right
      rw [store_self hhw, Trail.stored, protected_eq_page h.resident hhw hs hb]
      rcases bits_cases t write with ⟨hp, he⟩ | ⟨-, he⟩
      · refine .inr (.inr ⟨⟨rfl, h.resident⟩, hp, ?_⟩)
        rw [he, or_bits_of_marked hmark (.inl rfl)]
      · refine .inr (.inl ⟨.inr ⟨rfl, h.resident⟩, ?_⟩)
        rw [he, or_bits_of_marked hmark (.inr rfl)]
    · rw [store_of_ne hw]
      exact h.fetched.marksOnly write w

theorem AtPage.storesW (h : AtPage c t m s) (hs : t.StoresW) :
    t.pageDesc.protected &&& t.bits write ≠ t.bits write ∧
      ¬ t.MarksOnly write m (store s t.pageAddr (t.stored write)) := by
  obtain ⟨-, hwp, hd, hu, hhw⟩ := hs
  have hprot : t.pageDesc.protected.getLsbD 2 = true := by
    have hne : ¬ t.pageDesc.protected &&& 4 = 0 := fun h0 => hwp ((permits_iff t).1 h0).tables
    exact Bool.not_eq_false _ ▸ (and_w_iff _).not.1 hne
  refine ⟨fun hb => ?_, fun hm => ?_⟩
  · have h3 := used_of_usedBits hb
    rw [getLsbD_protected _ (by decide)] at h3
    exact Bool.false_ne_true (((and_u_iff t.page).1 hu).symm.trans h3)
  · have hw := hm.getLsbD_w (physAddr t.pageAddr)
    have hold := (h.fetched.marksOnly write).getLsbD_w (physAddr t.pageAddr)
    rw [store_self hhw, Trail.stored, getLsbD_or, hprot, Bool.true_or, ← hold,
      ← word_of_ram (c := c) (m := s) hhw, ← h.page, (and_w_iff t.page).1 hd] at hw
    exact Bool.false_ne_true hw.symm

theorem AtPage.setsMarks {m' : Tables} (h : AtPage c t m s) (hg : Grows s m')
    (hm : ¬ InHwRange (physAddr t.pageAddr) → (m' (physAddr t.pageAddr)).getLsbD 3 = true ∧
      (write = true → t.Permits → (m' (physAddr t.pageAddr)).getLsbD 4 = true)) :
      t.SetsMarks write m' := by
  intro w hw
  refine ⟨?_, ?_⟩
  · rintro (ht | ⟨rfl, -⟩)
    · exact hg w 3 (h.used w ht hw)
    · exact (hm hw).1
  · rintro ⟨rfl, -⟩
    exact (hm hw).2

end Page

/-- What a walk leaves.  Where it returns, the marks are set, nothing else is changed exactly if no
    `W` of the tables is stored, and the `W` of the descriptor is that of all levels; where it
    throws, nothing but marks is left. -/
def Trail.Effects (t : Trail) (write : Bool) (m : Tables) : EStateM.Result Unit Tables U32 → Prop
  | .ok d m' => (t.MarksOnly write m m' ↔ ¬ t.StoresW) ∧ t.SetsMarks write m' ∧
      (t.PageUsed → (d &&& 4 = 0 ↔ t.Permits))
  | .error _ m' => t.MarksOnly write m m'

/-- The last step of a walk, the update of the page descriptor. -/
theorem AtPage.update {t : Trail} (h : AtPage c t m s) (super write : Bool) :
    t.Effects write m (updatePageDesc c super write t.pageDesc s) := by
  have hw4 : t.PageUsed → (t.stored write &&& 4 = 0 ↔ t.Permits) := by
    intro _
    rw [and_w_iff, Trail.stored, getLsbD_or, ← permits_iff, and_w_iff]
    -- the bits that are set do not include `W`
    rcases bits_cases t write with ⟨-, he⟩ | ⟨-, he⟩ <;> simp [he]
  rcases updatePageDesc_cases c super write
    (p := t.pageDesc) h.resident.2 s with ⟨hb, he⟩ | ⟨hb, he | he⟩
  · rw [he]
    refine ⟨iff_of_true (h.fetched.marksOnly write) fun hs => ?_, ?_, hw4⟩
    · exact (h.storesW hs).1 hb
    refine h.setsMarks (fun _ _ hi => hi) fun hhw => ?_
    rw [← word_of_ram (c := c) (m := s) hhw, ← h.page]
    have hown : ∀ i ≠ 2, t.page.getLsbD i = t.pageDesc.protected.getLsbD i :=
      fun i hi => (getLsbD_protected t.pageDesc hi).symm
    refine ⟨(hown 3 (by decide)).trans (used_of_usedBits hb), ?_⟩
    rintro rfl hp
    exact (hown 4 (by decide)).trans (modified_of_usedBits hb ((permits_iff t).2 hp))
  · rw [he]
    exact h.fetched.marksOnly write
  · rw [he]
    refine ⟨?_, ?_, hw4⟩
    · by_cases hs : t.StoresW
      · exact iff_of_false (h.storesW hs).2 (not_not.2 hs)
      · exact iff_of_true (h.marksOnly_store hs hb) hs
    · refine h.setsMarks
        (grows_store (c := c) (x := (t.root ||| t.ptr) &&& 4 ||| t.bits write) ?_) fun hhw => ?_
      · rw [← BitVec.or_assoc]
        exact congrArg (fun v => v ||| _ ||| _) h.page.symm
      · have hst : store s t.pageDesc.descAddr (t.stored write) (physAddr t.pageAddr) =
          t.stored write :=
          store_self hhw
        rw [Trail.stored] at hst
        rw [show usedBits write t.pageDesc.protected = t.bits write from rfl, hst,
          getLsbD_or, getLsbD_or]
        rcases bits_cases t write with ⟨hp, hbits⟩ | ⟨hp, hbits⟩
        · simp [hbits]
        · refine ⟨by simp [hbits], fun hw hper => absurd ⟨hw, hper⟩ hp⟩

/-- **Side effects of a walk.** -/
theorem walk_effects_iff (c : Config) (m : Tables) (addr : U32) (super write : Bool) :
    (trail c m addr super).Effects write m (lookupPagetable c addr super write m) := by
  rcases fetchPageDesc_trail c m addr super with ⟨s, he, hf⟩ | ⟨s, he, hf, hu,
    hn⟩ | ⟨he, hf, hu, hp⟩
  · rw [lookupPagetable, bind_of_error _ he]
    exact hf.marksOnly write
  · rw [lookupPagetable, bind_of_ok _ he]
    have hno : ¬ (trail c m addr super).PageUsed := fun h => hn h.1
    refine ⟨iff_of_true (hf.marksOnly write) fun h => hno h.1, setsMarks_of_table hu hno write,
      fun h => absurd h hno⟩
  · rw [lookupPagetable, bind_of_ok _ he]
    by_cases hv : (trail c m addr super).page &&& 1 = 0
    · have hno : ¬ (trail c m addr super).PageUsed := fun h => h.2 hv
      have hup : updatePageDesc c super write (trail c m addr super).pageDesc
        (tablesMarked c m addr super) =
          .ok (trail c m addr super).page (tablesMarked c m addr super) := by
        exact congrFun (if_pos hv) _
      show (trail c m addr super).Effects write m
        (updatePageDesc c super write (trail c m addr super).pageDesc _)
      rw [hup]
      exact ⟨iff_of_true (hf.marksOnly write) fun h => hno h.1, setsMarks_of_table hu hno write,
        fun h => absurd h hno⟩
    · have hat : AtPage c (trail c m addr super) m (tablesMarked c m addr super) :=
        ⟨hf, hu, rfl, hp, hv⟩
      exact hat.update super write

/-- Tables for the page at `0x5000`, which is not protected and not used yet, below a protected root
    table descriptor. -/
def protectedTables : Tables := fun w =>
  if w = 0x1000 then 0x200e else if w = 0x2000 then 0x300a else if w = 0x3014 then 0x7001 else 0

/-- A read through them leaves `U` and `W` in the page descriptor. -/
theorem walk_stores_w :
    after (lookupPagetable demoConfig 0x5000 false false) protectedTables 0x3014 = 0x700d ∧
      ¬ (trail demoConfig protectedTables 0x5000 false).MarksOnly false protectedTables
        (after (lookupPagetable demoConfig 0x5000 false false) protectedTables) := by
  have hafter : after (lookupPagetable demoConfig 0x5000 false false) protectedTables
      0x3014 = 0x700d := by
    decide +kernel
  refine ⟨hafter, fun h => ?_⟩
  have hw := h.getLsbD_w 0x3014
  exact absurd hw (by decide)

end Aranym.Mmu
