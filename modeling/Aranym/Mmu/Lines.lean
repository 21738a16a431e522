/-
  What the lines of the ATC say: a level 2 line that `Holds` what the registers or
  the tables say about a page decides as the translation without a cache does.
-/
import Aranym.Mmu.Flush
import Aranym.Mmu.Reference

namespace Aranym.Mmu

open Lib BitVec

variable {c : Config} {m m₀ : Tables} {a b : Access} {l : Line} {addr x y : U32}
  {super write : Bool}

/-! ## Level 1 lines -/

theorem getLsbD_of_atcTag (h : atcTag x = atcTag y) {i : ℕ} (hi : 18 ≤ i) :
    x.getLsbD i = y.getLsbD i := by
  by_cases h32 : i < 32
  · have hbit := congrArg (fun v => v.getLsbD (i - 18)) h
    simp only [atcTag, getLsbD_setWidth, getLsbD_ushiftRight, Nat.add_sub_cancel' hi] at hbit
    simpa [show i - 18 < 16 by omega] using hbit
  · rw [getLsbD_of_ge x i (by omega), getLsbD_of_ge y i (by omega)]

theorem samePage_of_l1 (ht : atcTag x = atcTag y) (hi : l1Index x = l1Index y) :
    SamePage 12 x y := by
  rw [samePage_iff]
  intro i h12
  by_cases h18 : 18 ≤ i
  · exact getLsbD_of_atcTag ht h18
  · have hbit := congrArg (fun n => n.testBit (i - 12)) hi
    simp only [l1Index, show (256 : ℕ) = 2 ^ 8 from rfl, Nat.testBit_mod_two_pow,
      show i - 12 < 8 by omega, decide_true, Bool.true_and, testBit_toNat,
      getLsbD_ushiftRight, Nat.add_sub_cancel' h12] at hbit
    exact hbit

/-- What a level 1 line answers. -/
def answer (a : Access) (l : Line) : Outcome :=
  if l.tag = atcTag a.addr then .ram (l.phys + a.addr) else redo a l

/-- The slot of an access. -/
def Access.slot (a : Access) : ℕ := l1Slot a.super a.data a.write a.addr

theorem eq_of_toNat_eq {d e : Bool} (h : d.toNat = e.toNat) : d = e := by
  cases d <;> cases e <;> first | rfl | cases h

theorem sameKind_of_slot (hs : a.slot = b.slot) (ht : atcTag a.addr = atcTag b.addr) :
    SameKind a b := by
  have ha := l1Index_lt a.addr
  have hb := l1Index_lt b.addr
  have hba := bank_lt a.data a.write
  have hbb := bank_lt b.data b.write
  rw [Access.slot, Access.slot, l1Slot_eq, l1Slot_eq] at hs
  have hsuper : a.super.toNat = b.super.toNat := by omega
  have hwa := Bool.toNat_lt a.write
  have hwb := Bool.toNat_lt b.write
  exact ⟨samePage_of_l1 ht (by omega), eq_of_toNat_eq hsuper,
    eq_of_toNat_eq (by omega), eq_of_toNat_eq (by omega)⟩

theorem atcTag_ne_not (x y : U32) : atcTag x ≠ ~~~(atcTag y) := by
  intro h
  have hb := congrArg (fun v => v.getLsbD 15) h
  simp only [getLsbD_not, getLsbD_atcTag (show 14 ≤ 15 by decide)] at hb
  cases hb

/-- A line that hits for two accesses of its slot hits for both in the same way. -/
theorem sameKind_of_hits (hs : a.slot = b.slot) (ha : Hits l a.addr) (hb : Hits l b.addr) :
    SameKind a b := by
  apply sameKind_of_slot hs
  rcases ha with ha | ha <;> rcases hb with hb | hb
  · rw [← ha, hb]
  · exact absurd (ha.symm.trans hb) (atcTag_ne_not _ _)
  · exact absurd (hb.symm.trans ha) (atcTag_ne_not _ _)
  · rw [ha] at hb
    exact BitVec.not_inj.1 hb

theorem SameKind.slot (h : SameKind a b) : b.slot = a.slot := by
  rw [Access.slot, Access.slot, l1Slot, l1Slot, l1Index_eq h.page, h.super, h.data, h.write]

theorem SameKind.tag (h : SameKind a b) : atcTag b.addr = atcTag a.addr := by
  rw [atcTag, atcTag, h.page.shift (by decide)]

theorem transparent_answer (h : SameKind a b) (ht : Transparent c m₀ a (answer a l)) :
    Transparent c m₀ b (answer b l) := by
  have htag := h.tag
  unfold Transparent at ht ⊢
  unfold answer redo at ht ⊢
  rw [htag]
  rcases translate_sameKind (c := c) (m := m₀) h with ⟨ha, hb⟩ | ⟨p, q, ha, hb, hsub, hpage⟩
  · rw [ha] at ht
    rw [hb]
    dsimp only at ht ⊢
    split_ifs at ht ⊢
    rfl
  · rw [ha] at ht
    rw [hb]
    -- the distance of the answer from the address is that of the translation
    have hmove : ∀ {z z'}, z - p = z' - q → l.phys + a.addr = z → l.phys + b.addr = z' := by
      rintro z z' hz rfl
      rw [← eq_sub_iff_add_eq, ← sub_add_sub_cancel z' q, ← hz, ← hsub, sub_add_sub_cancel,
        add_sub_cancel_right]
    have hpage' : ∀ x, SamePage 12 x p → SamePage 12 x q := fun x hx => hx.trans hpage
    split_ifs at ht ⊢
    · obtain ⟨hhw, hram, x, hx, hbound⟩ := ht
      exact ⟨fun hh => hhw ((isHw_page hpage).2 hh), hmove (by rw [sub_self, sub_self]) hram,
        x, hpage' x hx, by rw [← h.super, ← h.write]; exact hbound⟩
    · obtain ⟨hhw, hreg⟩ := ht
      exact ⟨(isHw_page hpage).1 hhw, hmove (hwAddr_page hpage) hreg⟩
    · obtain ⟨-, hhw, x, hx, hbound⟩ := ht
      exact ⟨rfl, fun hh => hhw ((isHw_page hpage).2 hh), x, hpage' x hx,
        by rw [← h.super, ← h.write]; exact hbound⟩

/-! ## Level 2 lines -/

/-- What a level 2 line holds about the page of `addr`: the match of a transparent translation
    register, identity if the MMU is off, or the page that the walk grants to a read. -/
structure Holds (c : Config) (m : Tables) (super : Bool) (addr : U32) (l : Line) : Prop where
  hw : l.hw = false
  ttr : l.tt = true → l.modified = true ∧ l.global = true ∧ l.phys = 0 ∧
    ∃ res, res ≠ .noMatch ∧ l.writeProtect = (res == .noWrite) ∧
      (l.validData = true → matchTtr c addr super true = res) ∧
      (l.validInst = true → matchTtr c addr super false = res)
  off : l.tt = false → c.mmuEnabled = false → l.modified = true ∧ l.global = true ∧ l.phys = 0 ∧
    l.writeProtect = false ∧ l.validData = true ∧ l.validInst = true
  walk : l.tt = false → c.mmuEnabled = true → l.validInst = l.validData ∧
    (l.validData = false → grant c m addr super false = none) ∧
    (l.validData = true → ∃ d, grant c m addr super false = some d ∧
      addr + l.phys = frame c d addr ∧
      l.writeProtect = (d &&& 4 != 0) ∧ l.global = (d &&& 0x400 != 0) ∧
      (l.modified = true → l.writeProtect = false → ∃ d', grant c m addr super true = some d'))

/-- The valid bit for the access's space. -/
def ownValid (a : Access) (l : Line) : Bool := if a.data then l.validData else l.validInst

/-- The registers of the access's space. -/
def ownTtr (c : Config) (a : Access) : Ttr := matchTtr c a.addr a.super a.data

/-- The line was filled by a match in the access's own space, or without one. -/
def OwnSpace (c : Config) (a : Access) (l : Line) : Prop :=
  (l.tt = true ↔ ownTtr c a ≠ .noMatch) ∧ (l.tt = true → ownValid a l = true)
deriving Decidable

theorem Holds.page (h : Holds c m super x l) (hp : SamePage 12 x y) : Holds c m super y l := by
  refine ⟨h.hw, ?_, h.off, ?_⟩
  · rw [← matchTtr_page hp, ← matchTtr_page hp]; exact h.ttr
  · intro ht he
    obtain ⟨hv, hnone, hsome⟩ := h.walk ht he
    rw [← grant_page hp, ← grant_page hp]
    refine ⟨hv, hnone, fun hvd => ?_⟩
    obtain ⟨d, hd, hframe, hrest⟩ := hsome hvd
    refine ⟨d, hd, ?_, hrest⟩
    have hsub := (frame_page (c := c) hp d).1
    rw [← hframe, add_sub_cancel_left, eq_sub_iff_add_eq, add_comm] at hsub
    exact hsub

theorem check_eq_fail : check a l = .fail ↔ ownValid a l = false ∨ a.write = true ∧
    l.writeProtect = true := by
  unfold check ownValid
  cases (if a.data = true then l.validData else l.validInst) <;> cases a.write <;>
    cases l.writeProtect <;> cases l.modified <;> simp

theorem check_eq_pass : check a l = .pass ↔ ownValid a l = true ∧
    (a.write = true → l.writeProtect = false ∧ l.modified = true) := by
  unfold check ownValid
  cases (if a.data = true then l.validData else l.validInst) <;> cases a.write <;>
    cases l.writeProtect <;> cases l.modified <;> simp

theorem check_eq_restart : check a l = .restart ↔ ownValid a l = true ∧ a.write = true ∧
    l.writeProtect = false ∧ l.modified = false := by
  unfold check ownValid
  cases (if a.data = true then l.validData else l.validInst) <;> cases a.write <;>
    cases l.writeProtect <;> cases l.modified <;> simp

theorem ownValid_of_walk (h : l.validInst = l.validData) : ownValid a l = l.validData := by
  unfold ownValid
  split_ifs
  · rfl
  · exact h

theorem Holds.own_ttr (h : Holds c m a.super a.addr l) (hv : ownValid a l) (ht : l.tt) :
    l.writeProtect = (ownTtr c a == .noWrite) := by
  obtain ⟨-, -, -, res, -, hwp, hd, hi⟩ := h.ttr ht
  unfold ownValid at hv
  unfold ownTtr
  cases hda : a.data with
  | true => rw [hda, if_pos rfl] at hv; rw [hd hv, hwp]
  | false =>
    rw [hda, if_neg Bool.false_ne_true] at hv
    rw [hi hv, hwp]

theorem frame_near (h : Near x y) (addr : U32) : frame c x addr = frame c y addr := by
  rw [frame, frame, h.and (k := ~~~0x1fff#32) (by decide), h.and (k := ~~~0xfff#32) (by decide)]

/-! ## Decisions -/

theorem translate_ttr (h : ownTtr c a ≠ .noMatch) :
    translate c m a = if a.write = true ∧ ownTtr c a = .noWrite then none else some a.addr := by
  unfold ownTtr at h ⊢
  unfold translate
  cases hres : matchTtr c a.addr a.super a.data with
  | noMatch => exact absurd hres h
  | okMatch => simp
  | noWrite => simp

theorem translate_off (h : ownTtr c a = .noMatch) (he : c.mmuEnabled = false) :
    translate c m a = some a.addr := by
  unfold ownTtr at h
  rw [translate, h, he]; rfl

theorem translate_walk_none (h : ownTtr c a = .noMatch) (he : c.mmuEnabled)
    (hg : grant c m a.addr a.super a.write = none) : translate c m a = none := by
  unfold ownTtr at h
  rw [translate, h, he, hg]; rfl

variable {d : U32}

theorem translate_walk_some (h : ownTtr c a = .noMatch) (he : c.mmuEnabled)
    (hg : grant c m a.addr a.super a.write = some d) :
    translate c m a = if a.write = true ∧ d &&& 4 ≠ 0 then none else some (frame c d a.addr) := by
  unfold ownTtr at h
  rw [translate, h, he, hg]; rfl

theorem check_fail (h : Holds c m a.super a.addr l) (ho : OwnSpace c a l) (hc : check a l = .fail) :
    translate c m a = none := by
  rw [check_eq_fail] at hc
  cases ht : l.tt with
  | true =>
    have hv := ho.2 ht
    obtain ⟨hw, hwp⟩ := hc.resolve_left (by rw [hv]; simp)
    rw [h.own_ttr hv ht, beq_iff_eq] at hwp
    rw [translate_ttr (ho.1.1 ht), if_pos ⟨hw, hwp⟩]
  | false =>
    have hno : ownTtr c a = .noMatch := by
      by_contra hne
      rw [ho.1.2 hne] at ht; cases ht
    cases he : c.mmuEnabled with
    | false =>
      -- without the MMU nothing fails
      obtain ⟨-, -, -, hwp, hd, hi⟩ := h.off ht he
      rw [ownValid_of_walk (hi.trans hd.symm), hd, hwp] at hc
      simp at hc
    | true =>
      obtain ⟨hv, hnone, hsome⟩ := h.walk ht he
      rw [ownValid_of_walk hv] at hc
      rcases hc with hvd | ⟨hw, hwp⟩
      · have hg := hnone hvd
        apply translate_walk_none hno he
        cases hw : a.write with
        | false => exact hg
        | true =>
          cases hgw : grant c m a.addr a.super true with
          | none => rfl
          | some d =>
            obtain ⟨d', hd', -⟩ := grant_read hgw
            rw [hd'] at hg; cases hg
      · cases hgw : grant c m a.addr a.super a.write with
        | none => exact translate_walk_none hno he hgw
        | some d =>
          rw [translate_walk_some hno he hgw]
          rw [hw] at hgw
          obtain ⟨d', hd', hn⟩ := grant_read hgw
          cases hvd : l.validData with
          | false => rw [hnone hvd] at hd'; cases hd'
          | true =>
            obtain ⟨d₁, hd1, -, hwp1, -⟩ := hsome hvd
            obtain rfl : d' = d₁ := Option.some.inj (hd'.symm.trans hd1)
            rw [hwp, hn.and (by decide)] at hwp1
            rw [if_pos ⟨hw, by simpa using hwp1.symm⟩]

theorem check_pass (h : Holds c m a.super a.addr l) (ho : OwnSpace c a l) (hc : check a l = .pass) :
    translate c m a = some (a.addr + l.phys) := by
  obtain ⟨hv, hw⟩ := check_eq_pass.1 hc
  cases ht : l.tt with
  | true =>
    obtain ⟨-, -, hphys, -⟩ := h.ttr ht
    rw [translate_ttr (ho.1.1 ht), hphys, add_zero, if_neg]
    rintro ⟨hwr, hno⟩
    have hwp := h.own_ttr hv ht
    rw [(hw hwr).1, hno] at hwp; cases hwp
  | false =>
    have hno : ownTtr c a = .noMatch := by
      by_contra hne
      rw [ho.1.2 hne] at ht; cases ht
    cases he : c.mmuEnabled with
    | false =>
      obtain ⟨-, -, hphys, -⟩ := h.off ht he
      rw [translate_off hno he, hphys, add_zero]
    | true =>
      obtain ⟨hvi, -, hsome⟩ := h.walk ht he
      rw [ownValid_of_walk hvi] at hv
      obtain ⟨d, hd, hframe, hwp, -, hmod⟩ := hsome hv
      rw [hframe]
      cases hwr : a.write with
      | false =>
        rw [translate_walk_some hno he (by rw [hwr]; exact hd), if_neg (by rw [hwr]; simp)]
      | true =>
        obtain ⟨hnwp, hm⟩ := hw hwr
        obtain ⟨d', hd'⟩ := hmod hm hnwp
        obtain ⟨d₁, hd1, hn⟩ := grant_read hd'
        obtain rfl : d = d₁ := Option.some.inj (hd.symm.trans hd1)
        rw [translate_walk_some hno he (by rw [hwr]; exact hd'), if_neg, frame_near hn]
        rintro ⟨-, hwp'⟩
        rw [hnwp, hn.and (by decide)] at hwp
        simp only [Bool.false_eq, bne_eq_false_iff_eq] at hwp
        exact hwp' hwp

/-! ## Fills -/

/-- The access is translated by the tables. -/
def UsesTables (c : Config) (a : Access) : Prop := ownTtr c a = .noMatch ∧ c.mmuEnabled = true
deriving Decidable

/-- The walk of an access. -/
def walk (c : Config) (a : Access) : TableM U32 := lookupPagetable c a.addr a.super a.write

/-- The walk of an access does not spoil the tables: a write that cannot set its marks is one to a
    page that cannot be read either, and the marks are harmless. -/
structure SafeWalk (c : Config) (m : Tables) (a : Access) : Prop where
  stores : a.write = true → Throws c m a.addr a.super true → Throws c m a.addr a.super false
  marks : Harmless c m (after (walk c a) m)

theorem fillWalk_eq (l : Line) (m : Tables) : (fillWalk c addr super write l m).2 =
      ((match grant c m addr super write with
        | none => l.fault
        | some d => l.page c addr d), after (lookupPagetable c addr super write) m) := by
  unfold fillWalk grant after
  cases lookupPagetable c addr super write m with
  | error e m' => rfl
  | ok d m' =>
    dsimp only
    split_ifs <;> rfl

theorem Marked.grant_read (hm : Marked c m₀ m) (h : Mmu.grant c m addr super write = some d) :
    ∃ d₀, Mmu.grant c m₀ addr super false = some d₀ ∧ Near d d₀ := by
  obtain ⟨d', hd', hn⟩ : ∃ d', Mmu.grant c m addr super false = some d' ∧ Near d' d := by
    cases write with
    | false => exact ⟨d, h, Near.refl _⟩
    | true => exact Mmu.grant_read h
  rcases hm.grant addr super false with ⟨hnone, -⟩ | ⟨d₁, d₀, h1, h2, hn'⟩
  · rw [hnone] at hd'; cases hd'
  · obtain rfl : d' = d₁ := Option.some.inj (hd'.symm.trans h1)
    exact ⟨d₀, h2, hn.symm.trans hn'⟩

theorem Marked.grant_some (hm : Marked c m₀ m) (h : Mmu.grant c m addr super write = some d) :
    ∃ d₀, Mmu.grant c m₀ addr super write = some d₀ := by
  rcases hm.grant addr super write with ⟨hnone, -⟩ | ⟨_, d₀, -, h2, -⟩
  · rw [hnone] at h; cases h
  · exact ⟨d₀, h2⟩

theorem holds_fault (hm : Marked c m₀ m) (hs : SafeWalk c m a) (he : c.mmuEnabled)
    (ht : l.tt = false) (hh : l.hw = false) (hg : grant c m a.addr a.super a.write = none) :
    Holds c m₀ a.super a.addr l.fault := by
  refine ⟨hh, fun h => ?_, fun _ h => ?_, fun _ _ => ⟨rfl, fun _ => ?_, fun h => ?_⟩⟩
  · exact absurd (ht.symm.trans h) (by simp)
  · rw [he] at h; cases h
  · have hr : grant c m a.addr a.super false = none := by
      cases hw : a.write with
      | false => rw [hw] at hg; exact hg
      | true => rw [hw] at hg; exact grant_read_none (hs.stores hw) hg
    rcases hm.grant a.addr a.super false with ⟨-, h⟩ | ⟨d, _, h, -⟩
    · exact h
    · rw [hr] at h; cases h
  · cases h

theorem holds_page (hm : Marked c m₀ m) (he : c.mmuEnabled) (ht : l.tt = false) (hh : l.hw = false)
    (hg : grant c m addr super write = some d) : Holds c m₀ super addr (l.page c addr d) := by
  obtain ⟨d₀, hd0, hn⟩ := hm.grant_read hg
  refine ⟨hh, fun h => ?_, fun _ h => ?_, fun _ _ => ⟨rfl, fun h => ?_, fun _ => ?_⟩⟩
  · exact absurd (ht.symm.trans h) (by simp)
  · rw [he] at h; cases h
  · cases h
  · refine ⟨d₀, hd0, ?_, ?_, ?_, ?_⟩
    · rw [← frame_near hn]
      unfold Line.page frame
      split_ifs <;> exact frame_add _ _ _
    · show (d &&& 4 != 0) = _
      rw [hn.and (by decide)]
    · show (d &&& 0x400 != 0) = _
      rw [hn.and (by decide)]
    · show (d &&& 0x10 != 0) = true → (d &&& 4 != 0) = false → _
      intro hmod hwp
      have hd : ∃ d', grant c m addr super true = some d' := by
        cases write with
        | true => exact ⟨d, hg⟩
        | false =>
          obtain ⟨d', hd', -⟩ := grant_write hg (by simpa using hmod) (by simpa using hwp)
          exact ⟨d', hd'⟩
      obtain ⟨d', hd'⟩ := hd
      exact hm.grant_some hd'

/-- A line, and the tables, as a fill for the access `a` leaves them. -/
structure Filled (c : Config) (m₀ : Tables) (a : Access) (r : Line × Tables) : Prop where
  tag : r.1.tag = atcTag a.addr
  holds : Holds c m₀ a.super a.addr r.1
  own : OwnSpace c a r.1
  marked : Marked c m₀ r.2

/-- A line that was just filled does not have to be filled again: the walk for a write returns a
    page that is modified or protected, or none. -/
theorem check_fill_ne_restart (c : Config) (a : Access) (l : Line) (m : Tables) :
    check a (fillAtcL2 c a.addr a.super a.data a.write l m).2.1 ≠ .restart := by
  intro hr
  unfold fillAtcL2 at hr
  dsimp only at hr
  split_ifs at hr
  · exact absurd (check_eq_restart.1 hr).2.2.2 (by simp)
  · exact absurd (check_eq_restart.1 hr).2.2.2 (by simp)
  rw [fillWalk_eq] at hr
  obtain ⟨hv, hw, hwp, hmod⟩ := check_eq_restart.1 hr
  cases hg : grant c m a.addr a.super a.write with
  | none =>
    rw [hg, ownValid_of_walk rfl] at hv
    cases hv
  | some d =>
    rw [hg] at hwp hmod
    rw [hw] at hg
    have hwp' : (d &&& 4 != 0) = false := hwp
    have hmod' : (d &&& 0x10 != 0) = false := hmod
    exact grant_modified hg (by simpa using hwp') (by simpa using hmod')

theorem filled_ttr (hm : Marked c m₀ m) (hno : ownTtr c a ≠ .noMatch) (l : Line) :
    Filled c m₀ a (fillAtcL2 c a.addr a.super a.data a.write l m).2 := by
  unfold ownTtr at hno
  rw [fillAtcL2, if_pos hno]
  have hown : ∀ {d}, (a.data = d ∨ matchTtr c a.addr a.super d = matchTtr c a.addr a.super a.data) →
      matchTtr c a.addr a.super d = matchTtr c a.addr a.super a.data := by
    rintro d (rfl | h)
    · rfl
    · exact h
  refine ⟨rfl, ⟨rfl, fun _ => ⟨rfl, rfl, rfl, _, hno, rfl, ?_, ?_⟩, nofun, nofun⟩, ?_, hm⟩
  · intro hv
    apply hown
    simpa using hv
  · intro hv
    apply hown
    simpa using hv
  · refine ⟨⟨fun _ => hno, fun _ => rfl⟩, fun _ => ?_⟩
    unfold ownValid
    cases a.data <;> rfl

theorem filled_off (hm : Marked c m₀ m) (hno : ownTtr c a = .noMatch) (he : c.mmuEnabled = false)
    (l : Line) : Filled c m₀ a (fillAtcL2 c a.addr a.super a.data a.write l m).2 := by
  have hne : ¬ matchTtr c a.addr a.super a.data ≠ .noMatch := not_not.2 hno
  rw [fillAtcL2, if_neg hne, he]
  refine ⟨rfl, ⟨rfl, nofun, fun _ _ => ⟨rfl, rfl, rfl, rfl, rfl, rfl⟩, ?_⟩, ?_, hm⟩
  · intro _ h; rw [he] at h; cases h
  · exact ⟨⟨nofun, fun h => absurd hno h⟩, nofun⟩

theorem filled_walk (hm : Marked c m₀ m) (hu : UsesTables c a) (hs : SafeWalk c m a) (l : Line) :
    Filled c m₀ a (fillAtcL2 c a.addr a.super a.data a.write l m).2 := by
  obtain ⟨hno, he⟩ := hu
  have hne : ¬ matchTtr c a.addr a.super a.data ≠ .noMatch := not_not.2 hno
  rw [fillAtcL2, if_neg hne, he, Bool.not_true, if_neg Bool.false_ne_true, fillWalk_eq]
  have hmarked := hm.after (keeps_lookupPagetable a.addr a.super a.write m) hs.marks
  have hown : ∀ {l : Line}, l.tt = false → OwnSpace c a l := by
    intro l ht
    refine ⟨⟨fun h => ?_, fun h => absurd hno h⟩, fun h => ?_⟩
    all_goals rw [ht] at h; cases h
  cases hg : grant c m a.addr a.super a.write with
  | none => exact ⟨rfl, holds_fault hm hs he rfl rfl hg, hown rfl, hmarked⟩
  | some d => exact ⟨rfl, holds_page hm he rfl rfl hg, hown rfl, hmarked⟩

/-- **What `mmu_fill_atc_l2` does**: it makes a line that holds and is of the access's space. -/
theorem fill_spec (hm : Marked c m₀ m) (hs : UsesTables c a → SafeWalk c m a) (l : Line) :
    Filled c m₀ a (fillAtcL2 c a.addr a.super a.data a.write l m).2 := by
  by_cases hno : ownTtr c a = .noMatch
  · cases he : c.mmuEnabled with
    | false => exact filled_off hm hno he l
    | true => exact filled_walk hm ⟨hno, he⟩ (hs ⟨hno, he⟩) l
  · exact filled_ttr hm hno l

/-! ## Restarts -/

/-- The fills from the label `restart` on, as long as they are not more than `n`. -/
def restarts (c : Config) (a : Access) : ℕ → Line → Tables → ℕ
  | 0, _, _ => 0
  | n + 1, l, m =>
    if check a l = .restart then
      let r := fillAtcL2 c a.addr a.super a.data a.write l m
      restarts c a n r.2.1 r.2.2 + 1
    else 0

/-- All fills of `mmu_fill_atc_l1`, with the one of a line of another page. -/
def l2Fills (c : Config) (s : Mmu) (a : Access) (n : ℕ) : ℕ :=
  (if (s.l2 (l2Slot a.super a.addr)).tag ≠ atcTag a.addr then 1 else 0) +
    restarts c a n (lookupL2 c s a).1 (lookupL2 c s a).2

theorem restarts_le_one (c : Config) (a : Access) (n : ℕ) (l : Line) (m : Tables) :
    restarts c a n l m ≤ 1 := by
  rcases n with _ | _ | n
  · exact Nat.zero_le _
  · unfold restarts
    split_ifs <;> simp [restarts]
  · simp only [restarts, check_fill_ne_restart, if_false]
    split_ifs <;> simp

/-- **The restart terminates**, for all registers, ATC, tables and accesses: there are two fills at
    most, and `mmu_fill_atc_l1` returns. -/
theorem fill_restarts_end (c : Config) (s : Mmu) (a : Access) :
    (∀ n, l2Fills c s a n ≤ 2) ∧ ∀ l1, (fillAtcL1 c s a l1).isSome := by
  refine ⟨fun n => ?_, fun l1 => ?_⟩
  · have := restarts_le_one c a n (lookupL2 c s a).1 (lookupL2 c s a).2
    unfold l2Fills
    split_ifs <;> omega
  · unfold fillAtcL1
    generalize lookupL2 c s a = r
    have hset : settle c a 2 r.1 r.2 ≠ none := by
      rw [settle]
      cases check a r.1 with
      | fail => simp
      | pass => simp
      | restart =>
        simp only [settle]
        have hne := check_fill_ne_restart c a r.1 r.2
        cases hc : check a (fillAtcL2 c a.addr a.super a.data a.write r.1 r.2).2.1 <;> simp_all
    cases h : settle c a 2 r.1 r.2 with
    | none => exact absurd h hset
    | some q => simp [h]

end Aranym.Mmu
