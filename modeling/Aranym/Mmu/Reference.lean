/-
  The pages that the walk grants, and the translation without a cache.
-/
import Aranym.Mmu.Tables

namespace Aranym.Mmu

open Lib

variable {c : Config} {m m₀ : Tables} {addr x y : U32} {super write : Bool}

/-! ## The page that is granted -/

/-- The descriptor that the walk finds, if it finds a page and the page may be accessed. -/
def grant (c : Config) (m : Tables) (addr : U32) (super write : Bool) : Option U32 :=
  match lookupPagetable c addr super write m with
  | .ok desc _ => if Denied super desc then none else some desc
  | .error _ _ => none

/-- The walk throws. -/
def Throws (c : Config) (m : Tables) (addr : U32) (super write : Bool) : Prop :=
  ∃ m', lookupPagetable c addr super write m = .error () m'

instance (c : Config) (m : Tables) (addr : U32) (super write : Bool) :
    Decidable (Throws c m addr super write) :=
  match h : lookupPagetable c addr super write m with
  | .ok _ _ => .isFalse fun ⟨_, h'⟩ => by rw [h] at h'; cases h'
  | .error _ m' => .isTrue ⟨m', h⟩

theorem denied_near (h : Near x y) (super : Bool) : Denied super x ↔ Denied super y := by
  unfold Denied
  rw [h.and (k := 1) (by decide), h.and (k := 0x80) (by decide)]

theorem Marked.grant (h : Marked c m₀ m) (addr : U32) (super write : Bool) :
    (Mmu.grant c m addr super write = none ∧ Mmu.grant c m₀ addr super write = none) ∨
      ∃ d d₀, Mmu.grant c m addr super write = some d ∧ Mmu.grant c m₀ addr super write = some d₀ ∧
        Near d d₀ := by
  unfold Mmu.grant
  rcases lookupPagetable_together addr super write m m₀ h with
    ⟨_, _, _, _, h1, h2⟩ | ⟨d, _, d₀, _, h1, h2, hn⟩
  · rw [h1, h2]; exact .inl ⟨rfl, rfl⟩
  · rw [h1, h2]
    dsimp only
    by_cases hd : Denied super d₀
    · rw [if_pos hd, if_pos ((denied_near hn super).2 hd)]; exact .inl ⟨rfl, rfl⟩
    · rw [if_neg hd, if_neg fun h => hd ((denied_near hn super).1 h)]
      exact .inr ⟨d, d₀, rfl, rfl, hn⟩

/-- The two walks for a page, for a read and for a write: they have the same first part. -/
theorem lookupPagetable_cases (c : Config) (m : Tables) (addr : U32) (super : Bool) :
    (∀ write, Throws c m addr super write) ∨
    (∃ desc, Denied super desc ∧
      ∀ write, ∃ m', lookupPagetable c addr super write m = .ok desc m') ∨
    ∃ p m', ¬ p.desc &&& 1 = 0 ∧
      ∀ write, lookupPagetable c addr super write m = updatePageDesc c super write p m' := by
  cases hf : fetchPageDesc c addr super m with
  | error e m' => exact .inl fun write => ⟨m', bind_of_error _ hf⟩
  | ok r m' =>
    have hwalk : ∀ write, lookupPagetable c addr super write m = _ := fun write => bind_of_ok _ hf
    cases r with
    | none => exact .inr (.inl ⟨0, .inl (by decide), fun write => ⟨m', hwalk write⟩⟩)
    | some p =>
      by_cases hv : p.desc &&& 1 = 0
      · refine .inr (.inl ⟨p.desc, .inl hv, fun write => ⟨m', ?_⟩⟩)
        rw [hwalk write]
        show updatePageDesc c super write p m' = _
        rw [updatePageDesc, if_pos hv]; rfl
      · exact .inr (.inr ⟨p, m', hv, hwalk⟩)

variable {d : U32}

theorem grant_eq_some (h : grant c m addr super write = some d) : ∃ p m', ¬ p.desc &&& 1 = 0 ∧
      (∀ write, lookupPagetable c addr super write m = updatePageDesc c super write p m') ∧
      (Puttable c super p.descAddr ∨ p.protected &&& usedBits write p.protected
        = usedBits write p.protected) ∧
      d = p.protected ||| usedBits write p.protected ∧ ¬ Denied super d := by
  unfold grant at h
  rcases lookupPagetable_cases c m addr super with ht | ⟨desc, hd, hok⟩ | ⟨p, m', hv, hwalk⟩
  · obtain ⟨m', hm⟩ := ht write
    rw [hm] at h; cases h
  · obtain ⟨m', hm⟩ := hok write
    rw [hm] at h
    simp only [hd, if_true] at h
    cases h
  · refine ⟨p, m', hv, hwalk, ?_⟩
    rw [hwalk write] at h
    by_cases hput : Puttable c super p.descAddr ∨
        p.protected &&& usedBits write p.protected = usedBits write p.protected
    · obtain ⟨m'', hm⟩ := updatePageDesc_ok c super write hv hput m'
      rw [hm] at h
      dsimp only at h
      split_ifs at h with hd
      cases h
      exact ⟨hput, rfl, hd⟩
    · rw [updatePageDesc_error hv (fun hp => hput (.inl hp)) (fun hb => hput (.inr hb))] at h
      cases h

theorem grant_of_update {p : PageDesc} {m' : Tables} (hv : ¬ p.desc &&& 1 = 0)
    (hwalk : lookupPagetable c addr super write m = updatePageDesc c super write p m')
    (hput : Puttable c super p.descAddr ∨ p.protected &&& usedBits write p.protected
      = usedBits write p.protected) (hn : Near d p.protected) (hd : ¬ Denied super d) :
    ∃ d', grant c m addr super write = some d' ∧ Near d' d := by
  obtain ⟨m'', hm⟩ := updatePageDesc_ok c super write hv hput m'
  have hnear : Near (p.protected ||| usedBits write p.protected) d :=
    (near_or (usedBits_marks write _) _).trans hn.symm
  refine ⟨_, ?_, hnear⟩
  rw [grant, hwalk, hm]
  exact if_neg fun h => hd ((denied_near hnear super).1 h)

theorem and_used_modified (x : U32) : x &&& 0x18 = 0x18 ↔ x &&& 8 = 8 ∧ x &&& 0x10 ≠ 0 := by
  have hsplit : x &&& 0x18 = (x &&& BitVec.twoPow 32 3) ||| (x &&& BitVec.twoPow 32 4) := by
    rw [← BitVec.and_or_distrib_left]; rfl
  rw [show (8 : U32) = BitVec.twoPow 32 3 from rfl,
    show (0x10 : U32) = BitVec.twoPow 32 4 from rfl, hsplit,
    BitVec.and_twoPow, BitVec.and_twoPow]
  cases x.getLsbD 3 <;> cases x.getLsbD 4 <;> decide

theorem grant_read (h : grant c m addr super true = some d) :
    ∃ d', grant c m addr super false = some d' ∧ Near d' d := by
  obtain ⟨p, m', hv, hwalk, hput, rfl, hd⟩ := grant_eq_some h
  refine grant_of_update hv (hwalk false) ?_ (near_or (usedBits_marks true _) _) hd
  refine hput.imp_right fun hb => ?_
  rcases usedBits_cases true p.protected with ⟨-, hbits⟩ | ⟨-, hbits⟩
  · rw [hbits, and_used_modified] at hb
    exact hb.1
  · rw [hbits] at hb
    exact hb

theorem grant_write (h : grant c m addr super false = some d) (hm : d &&& 0x10 ≠ 0)
    (hw : d &&& 4 = 0) : ∃ d', grant c m addr super true = some d' ∧ Near d' d := by
  obtain ⟨p, m', hv, hwalk, hput, rfl, hd⟩ := grant_eq_some h
  have hn : Near (p.protected ||| usedBits false p.protected) p.protected :=
    near_or (usedBits_marks false _) _
  refine grant_of_update hv (hwalk true) ?_ hn hd
  refine hput.imp_right fun hb => ?_
  have hbits : usedBits true p.protected = 0x18 := by
    rcases usedBits_cases true p.protected with ⟨-, hbits⟩ | ⟨hnw, -⟩
    · exact hbits
    · exact absurd ⟨rfl, by rwa [← hn.and (by decide)]⟩ hnw
  rw [hbits, and_used_modified]
  refine ⟨hb, ?_⟩
  -- `U` is set already, so `M` was found in the descriptor
  rwa [or_eq_of_and_eq hb] at hm

theorem grant_modified (h : grant c m addr super true = some d) (hw : d &&& 4 = 0) :
    d &&& 0x10 ≠ 0 := by
  obtain ⟨p, m', -, -, -, rfl, -⟩ := grant_eq_some h
  rcases usedBits_cases true p.protected with ⟨-, hbits⟩ | ⟨hnw, -⟩
  · have hall : (p.protected ||| 0x18) &&& 0x18 = 0x18 := by
      rw [BitVec.and_comm, BitVec.and_or_distrib_left, BitVec.and_self, BitVec.or_comm]
      exact or_eq_of_and_eq (by rw [← BitVec.and_assoc, BitVec.and_self])
    rw [hbits]
    exact ((and_used_modified _).1 hall).2
  · refine absurd ⟨rfl, ?_⟩ hnw
    rwa [← (near_or (usedBits_marks true _) p.protected).and (by decide)]

theorem grant_read_none (ht : Throws c m addr super true → Throws c m addr super false)
    (h : grant c m addr super true = none) : grant c m addr super false = none := by
  cases hr : grant c m addr super false with
  | none => rfl
  | some d =>
    exfalso
    obtain ⟨p, m', hv, hwalk, hput, rfl, hd⟩ := grant_eq_some hr
    by_cases hput' : Puttable c super p.descAddr ∨
        p.protected &&& usedBits true p.protected = usedBits true p.protected
    · obtain ⟨d', hd', -⟩ := grant_of_update hv (hwalk true) hput'
        (near_or (usedBits_marks false _) _) hd
      rw [hd'] at h; cases h
    · obtain ⟨m'', hm⟩ := ht ⟨m', by
        rw [hwalk true]
        exact updatePageDesc_error hv (fun hp => hput' (.inl hp)) (fun hb => hput' (.inr hb)) m'⟩
      obtain ⟨m₃, hok⟩ := updatePageDesc_ok c super false hv hput m'
      rw [hwalk false, hok] at hm; cases hm

/-! ## Pages -/

section

variable (h : SamePage 12 x y)
include h

theorem rootSlot_page (super : Bool) : rootSlot c super x = rootSlot c super y := by
  rw [rootSlot, rootSlot, h.shift_and 23 (by decide)]

theorem ptrSlot_page (desc : U32) : ptrSlot desc x = ptrSlot desc y := by
  rw [ptrSlot, ptrSlot, h.shift_and 16 (by decide)]

theorem pageSlot_page (desc : U32) : pageSlot c desc x = pageSlot c desc y := by
  rw [pageSlot, pageSlot, h.shift_and 11 (by decide), h.shift_and 10 (by decide)]

theorem lookupPagetable_page (super write : Bool) :
    lookupPagetable c x super write = lookupPagetable c y super write := by
  unfold lookupPagetable fetchPageDesc fetchPtr fetchPage
  simp only [rootSlot_page h, ptrSlot_page h, pageSlot_page h]

theorem grant_page (m : Tables) (super write : Bool) :
    grant c m x super write = grant c m y super write := by
  rw [grant, grant, lookupPagetable_page h]

theorem doMatchTtr_page (ttr : U32) (super : Bool) :
    doMatchTtr ttr x super = doMatchTtr ttr y super := by
  have hmsb : (x ^^^ ttr) &&& 0xff000000 = (y ^^^ ttr) &&& 0xff000000 := (h.xor ttr).and (by decide)
  rw [doMatchTtr, doMatchTtr, hmsb]

theorem matchTtr_page (super data : Bool) : matchTtr c x super data = matchTtr c y super data := by
  simp only [matchTtr, matchPair, doMatchTtr_page h]

end

/-! ## The translation without a cache -/

/-- The page of the descriptor with the offset of the address. -/
def frame (c : Config) (desc addr : U32) : U32 :=
  if c.mmuPagesize8k then (desc &&& ~~~0x1fff#32) ||| (addr &&& 0x1fff)
  else (desc &&& ~~~0xfff#32) ||| (addr &&& 0xfff)

/-- First the registers of the access's own space, then identity if the MMU is off, else the
    walk. -/
def translate (c : Config) (m : Tables) (a : Access) : Option U32 :=
  match matchTtr c a.addr a.super a.data with
  | .okMatch => some a.addr
  | .noWrite => if a.write then none else some a.addr
  | .noMatch =>
    if !c.mmuEnabled then some a.addr
    else match grant c m a.addr a.super a.write with
      | none => none
      | some desc => if a.write = true ∧ desc &&& 4 ≠ 0 then none else some (frame c desc a.addr)

/-- The hardware registers appear twice, at `0x00fxxxxx` and at `0xfffxxxxx`. -/
def IsHw (p : U32) : Prop := InHwRange p ∨ p &&& 0xfff00000 = 0xfff00000
deriving Decidable

/-- The address of a hardware register. -/
def hwAddr (p : U32) : U32 := if InHwRange p then p else p - 0xff000000

/-- What may become of an access to the physical address `p`.  Whether there is memory is asked once
    for a page, so that the answer may be that of another address of the page. -/
def Served (c : Config) (a : Access) (p : U32) : Outcome → Prop
  | .ram q => ¬ IsHw p ∧ q = p ∧ ∃ x, SamePage 12 x p ∧ testRamBoundary c x 1 a.super a.write = true
  | .hw q => IsHw p ∧ q = hwAddr p
  | .busError f => f = mmuBusError a ∧ ¬ IsHw p ∧
      ∃ x, SamePage 12 x p ∧ testRamBoundary c x 1 a.super a.write = false
  | .diverge => False

/-- The outcome is that of the translation without a cache. -/
def Transparent (c : Config) (m : Tables) (a : Access) (o : Outcome) : Prop :=
  match translate c m a with
  | none => o = .busError (mmuBusError a)
  | some p => Served c a p o

/-! ## Accesses to one page -/

/-- Two accesses of one kind to one page. -/
structure SameKind (a b : Access) : Prop where
  page : SamePage 12 a.addr b.addr
  super : a.super = b.super
  data : a.data = b.data
  write : a.write = b.write

theorem frame_page (h : SamePage 12 x y) (desc : U32) :
    frame c desc x - x = frame c desc y - y ∧ SamePage 12 (frame c desc x) (frame c desc y) := by
  have hsub : ∀ {m : U32}, x &&& ~~~m = y &&& ~~~m →
      ((desc &&& ~~~m) ||| (x &&& m)) - x = ((desc &&& ~~~m) ||| (y &&& m)) - y := by
    intro m hm
    rw [← frame_add, ← frame_add, hm, add_sub_cancel_left, add_sub_cancel_left]
  unfold frame
  split_ifs
  all_goals exact ⟨hsub (h.and (by decide)), (h.and_right _).or _⟩

/-- Two accesses of one kind to one page are translated to one page. -/
theorem translate_sameKind {a b : Access} (h : SameKind a b) :
    (translate c m a = none ∧ translate c m b = none) ∨
      ∃ p q, translate c m a = some p ∧ translate c m b = some q ∧ p - a.addr = q - b.addr ∧
        SamePage 12 p q := by
  unfold translate
  rw [matchTtr_page h.page, h.super, h.data, h.write, grant_page h.page]
  have hid : a.addr - a.addr = b.addr - b.addr := by rw [sub_self, sub_self]
  split
  · exact .inr ⟨_, _, rfl, rfl, hid, h.page⟩
  · split_ifs
    · exact .inl ⟨rfl, rfl⟩
    · exact .inr ⟨_, _, rfl, rfl, hid, h.page⟩
  · split_ifs
    · exact .inr ⟨_, _, rfl, rfl, hid, h.page⟩
    · split
      · exact .inl ⟨rfl, rfl⟩
      · split_ifs
        · exact .inl ⟨rfl, rfl⟩
        · obtain ⟨h1, h2⟩ := frame_page (c := c) h.page _
          exact .inr ⟨_, _, rfl, rfl, h1, h2⟩

variable {p q : U32}

theorem inHwRange_page (h : SamePage 12 p q) : InHwRange p ↔ InHwRange q := by
  unfold InHwRange
  rw [h.and (m := 0xfff00000) (by decide)]

theorem isHw_page (h : SamePage 12 p q) : IsHw p ↔ IsHw q := by
  unfold IsHw
  rw [inHwRange_page h, h.and (m := 0xfff00000) (by decide)]

theorem hwAddr_page (h : SamePage 12 p q) : hwAddr p - p = hwAddr q - q := by
  unfold hwAddr
  by_cases hq : InHwRange q
  · rw [if_pos hq, if_pos ((inHwRange_page h).2 hq), sub_self, sub_self]
  · rw [if_neg hq, if_neg fun hp => hq ((inHwRange_page h).1 hp), sub_sub_cancel_left,
      sub_sub_cancel_left]

end Aranym.Mmu
