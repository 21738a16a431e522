/-
  Protected addresses with the MMU switched off.

  `test_ram_boundary` decides for single addresses: bytes 0 to 7 cannot be written,
  the rest of their page can.  `mmu_fill_atc_l1` asks it for the address that fills
  a level 1 line, and the line then answers for the whole page.
-/
import Aranym.Mmu.Transparency

namespace Aranym.Mmu

open Lib BitVec

variable {c : Config} {m₀ : Tables} {s : Mmu} {a b : Access} {x y : U32}

/-! ## The MMU is off -/

/-- The MMU and the transparent translation registers are disabled. -/
structure Off (c : Config) : Prop where
  mmu : c.mmuEnabled = false
  itt0 : c.itt0 &&& 0x8000 = 0
  itt1 : c.itt1 &&& 0x8000 = 0
  dtt0 : c.dtt0 &&& 0x8000 = 0
  dtt1 : c.dtt1 &&& 0x8000 = 0

theorem doMatchTtr_disabled {ttr : U32} (h : ttr &&& 0x8000 = 0) (addr : U32) (super : Bool) :
    doMatchTtr ttr addr super = .noMatch := if_neg (not_not.2 h)

theorem Off.ownTtr (h : Off c) (a : Access) : ownTtr c a = .noMatch := by
  unfold Mmu.ownTtr matchTtr matchPair
  split_ifs
  · rw [doMatchTtr_disabled h.dtt0]
    exact doMatchTtr_disabled h.dtt1 _ _
  · rw [doMatchTtr_disabled h.itt0]
    exact doMatchTtr_disabled h.itt1 _ _

theorem Off.translate (h : Off c) (m : Tables) (a : Access) : translate c m a = some a.addr :=
  translate_off (h.ownTtr a) h.mmu

/-- The lines are truthful, and none of level 2 was filled by a match. -/
structure OffInv (c : Config) (m₀ : Tables) (s : Mmu) : Prop where
  inv : Inv c m₀ s
  tt : ∀ super addr, (s.l2 (l2Slot super addr)).tag = atcTag addr →
    (s.l2 (l2Slot super addr)).tt = false

theorem ownSpace_of_tt {l : Line} (h : Off c) (hl : l.tt = false) : OwnSpace c a l := by
  refine ⟨iff_of_false (by rw [hl]; exact Bool.false_ne_true) (not_not.2 (h.ownTtr a)),
    fun ht => ?_⟩
  rw [hl] at ht
  cases ht

theorem OffInv.clean (h : Off c) (hi : OffInv c m₀ s) (op : Op) : Clean c s op := by
  cases op with
  | access a =>
    refine .inr ⟨fun ht => ownSpace_of_tt h (hi.tt a.super a.addr ht), fun htr => ?_,
      fun _ hu => ?_⟩
    · rw [h.translate] at htr
      cases htr
    · exact absurd (h.mmu.symm.trans hu.2) Bool.false_ne_true
  | flush addr super global => trivial
  | flushAll global => trivial

theorem offInv_flushAtcAll (c : Config) (s : Mmu) : OffInv c s.tables (s.flushAtcAll true) :=
  ⟨inv_flushAtcAll c s, fun super addr ht => absurd ht (tag_flushAtcAll_ne s super addr)⟩

/-- A line that answers after a flush is one that answered before. -/
theorem tt_flushed {global : Bool} {N : Set ℕ} {t t' : ℕ → Line} (h : Flushed global N t t')
    (ht : ∀ super addr, (t (l2Slot super addr)).tag = atcTag addr →
      (t (l2Slot super addr)).tt = false)
    (super : Bool) (addr : U32) (hl : (t' (l2Slot super addr)).tag = atcTag addr) :
    (t' (l2Slot super addr)).tt = false := by
  rcases h.cases (l2Slot super addr) with he | hd
  · rw [he] at hl ⊢
    exact ht super addr hl
  · exact absurd (.inl hl) (hd.not_hits addr)

/-- What an access does with the MMU off: it hits a line, or fills one without a match. -/
theorem Off.access_cases (h : Off c) (hi : OffInv c m₀ s) (a : Access) :
    Hits (s.l1 a.slot) a.addr ∧ s.access c a = (s, answer a (s.l1 a.slot)) ∨
      ∃ l m, Filled c m₀ a (l, m) ∧ l.tt = false ∧ l.phys = 0 ∧
        s.access c a = (filledState s a (install c a l).2 l m, answer a (install c a l).2) := by
  by_cases hh : Hits (s.l1 a.slot) a.addr
  · exact .inl ⟨hh, access_hit hh⟩
  · have hclean := (hi.clean h (.access a)).resolve_left hh
    obtain ⟨l, m, hf, ⟨htr, -⟩ | ⟨htr, -, hslow⟩⟩ := slow_spec hi.inv hclean
    · rw [h.translate] at htr
      cases htr
    · have htt : l.tt = false := Bool.eq_false_iff.2 fun ht => (hf.own.1.1 ht) (h.ownTtr a)
      exact .inr ⟨l, m, hf, htt, (hf.holds.off htt h.mmu).2.2.1, (access_miss hh).trans hslow⟩

/-- One operation keeps the lines as an MMU that is off fills them. -/
theorem OffInv.step (h : Off c) (hi : OffInv c m₀ s) (op : Op) :
    OffInv c m₀ (Mmu.step c s op).1 := by
  refine ⟨inv_step hi.inv (hi.clean h op), ?_⟩
  cases op with
  | access a =>
    rcases h.access_cases hi a with ⟨-, he⟩ | ⟨l, m, hf, htt, -, he⟩
    · have hs : (Mmu.step c s (.access a)).1 = s := congrArg Prod.fst he
      rw [hs]
      exact hi.tt
    · have hs : (Mmu.step c s (.access a)).1 = filledState s a (install c a l).2 l m :=
        congrArg Prod.fst he
      rw [hs]
      intro super addr ht
      by_cases hslot : l2Slot super addr = l2Slot a.super a.addr
      · have hself : (filledState s a (install c a l).2 l m).l2 (l2Slot super addr) = l := by
          rw [hslot]
          exact Function.update_self (l2Slot a.super a.addr) l s.l2
        rw [hself]
        exact htt
      · have hother : (filledState s a (install c a l).2 l m).l2 (l2Slot super addr) =
            s.l2 (l2Slot super addr) := by
          rw [filledState]
          dsimp only
          rw [Function.update_of_ne hslot]
        rw [hother] at ht ⊢
        exact hi.tt super addr ht
  | flush addr super global => exact tt_flushed (flushed_flushL2 c s.l2 addr super global) hi.tt
  | flushAll global => exact tt_flushed (flushed_below global 8192 s.l2) hi.tt

/-! ## Pages with one answer -/

/-- The access is served from memory. -/
def Succeeds (c : Config) (s : Mmu) (a : Access) : Prop := (s.access c a).2 = .ram a.addr
deriving Decidable

/-- `test_ram_boundary` for one byte. -/
def Allowed (c : Config) (a : Access) : Prop := testRamBoundary c a.addr 1 a.super a.write = true
deriving Decidable

/-- The test gives one answer for all accesses of a kind to a page. -/
def Uniform (c : Config) (a : Access) : Prop := ∀ b, SameKind a b → (Allowed c b ↔ Allowed c a)

/-- Every byte access of the kind of `a` to its page, after any run, succeeds exactly if the test
    allows its own address. -/
def PerAddress (c : Config) (a : Access) : Prop :=
  ∀ (s : Mmu) (ops : List Op) (b : Access), SameKind a b → b.size = .byte →
    (Succeeds c (run (Mmu.step c) (s.flushAtcAll true) ops) b ↔ Allowed c b)

/-- With memories that begin and end at page boundaries only page 0 has two answers: for writes, and
    with `PROTECT2K` for user accesses. -/
theorem uniform_of_aligned (hfast : 4096 ∣ c.fastRAMSize) (hvideo : 4096 ∣ c.videoRAMBase.toNat)
    (ha : 4096 ≤ a.addr.toNat ∨ a.write = false ∧ (c.protect2k = false ∨ a.super = true)) :
    Uniform c a := by
  intro b hb
  have hpage : a.addr.toNat / 4096 = b.addr.toNat / 4096 := samePage_iff_div.1 hb.page
  obtain ⟨v, hv⟩ := hvideo
  have hle : b.addr.toNat ≤ fastRAMBegin + c.fastRAMSize - 1 ↔
      a.addr.toNat ≤ fastRAMBegin + c.fastRAMSize - 1 := by
    unfold fastRAMBegin
    omega
  have hbegin : fastRAMBegin ≤ b.addr.toNat ↔ fastRAMBegin ≤ a.addr.toNat := by
    unfold fastRAMBegin
    omega
  have hend : b.addr.toNat ≤ stRAMEnd - 1 ↔ a.addr.toNat ≤ stRAMEnd - 1 := by
    unfold stRAMEnd
    omega
  have hlo : c.videoRAMBase ≤ b.addr ↔ c.videoRAMBase ≤ a.addr := by
    rw [le_def, le_def]
    omega
  have hhi : b.addr ≤ c.videoRAMBase + 0x00100000 - BitVec.ofNat 32 1 ↔
      a.addr ≤ c.videoRAMBase + 0x00100000 - BitVec.ofNat 32 1 := by
    rw [le_def, le_def]
    have hlast : (c.videoRAMBase + 0x00100000 - BitVec.ofNat 32 1).toNat % 4096 = 4095 := by
      rw [toNat_sub, toNat_add, hv]
      change (2 ^ 32 - 1 + (4096 * v + 1048576) % 2 ^ 32) % 2 ^ 32 % 4096 = 4095
      omega
    omega
  unfold Allowed testRamBoundary
  simp only [← hb.super, ← hb.write, hle, hbegin, hend, hlo, hhi]
  rcases ha with ha | ⟨hw, hp⟩
  · -- neither the protected longs nor the first 2 KB are in the page
    have h8 : 8 ≤ b.addr.toNat ↔ 8 ≤ a.addr.toNat := by omega
    have h2k : b.addr.toNat < 0x800 ↔ a.addr.toNat < 0x800 := by omega
    simp only [h8, h2k]
  · rcases hp with hp | hp <;> simp [hw, hp]

theorem uniform_samePage (h : Uniform c a) (hx : SamePage 12 x a.addr) :
    testRamBoundary c x 1 a.super a.write = true ↔ Allowed c a :=
  h { a with addr := x } ⟨hx.symm, rfl, rfl, rfl⟩

theorem succeeds_iff_of_uniform (h : Off c) (hi : OffInv c m₀ s) (hram : ¬ IsHw a.addr)
    (hu : Uniform c a) : Succeeds c s a ↔ Allowed c a := by
  have ht := (inv_access hi.inv (hi.clean h (.access a))).2
  unfold Transparent at ht
  rw [h.translate] at ht
  unfold Succeeds
  cases ho : (s.access c a).2 with
  | ram q =>
    rw [ho] at ht
    obtain ⟨-, rfl, x, hx, hok⟩ := ht
    exact iff_of_true rfl ((uniform_samePage hu hx).1 hok)
  | hw q =>
    rw [ho] at ht
    exact absurd ht.1 hram
  | busError f =>
    rw [ho] at ht
    obtain ⟨-, -, x, hx, hno⟩ := ht
    refine iff_of_false (by simp) fun hok => ?_
    rw [← uniform_samePage hu hx, hno] at hok
    cases hok
  | diverge =>
    rw [ho] at ht
    exact ht.elim

theorem succeeds_after_allowed (h : Off c) (s : Mmu) (hram : ¬ IsHw a.addr) (ha : Allowed c a)
    (hab : SameKind a b) : Succeeds c ((s.flushAtcAll true).access c a).1 b := by
  rcases h.access_cases (offInv_flushAtcAll c s) a with ⟨hh, -⟩ | ⟨l, m, hf, -, hphys, he⟩
  · exact absurd hh (not_hits_flushAtcAll s a)
  have hself : a.addr + l.phys = a.addr := by
    rw [hphys]
    exact BitVec.add_zero a.addr
  have hinst : install c a l = (true, l) := by
    rcases install_cases c a l with ⟨h1, -⟩ | ⟨-, h2, -⟩ | ⟨-, h3, -⟩ | ⟨-, -, h4⟩
    · exact absurd (.inl (hself ▸ h1)) hram
    · exact absurd (.inr (hself ▸ h2)) hram
    · rw [hself] at h3
      exact absurd (h3.symm.trans ha) Bool.false_ne_true
    · exact h4
  have hline : ((s.flushAtcAll true).access c a).1.l1 b.slot = l := by
    rw [he, hinst, hab.slot]
    exact Function.update_self _ _ _
  have htag : l.tag = atcTag b.addr := by
    rw [hab.tag]
    exact hf.tag
  rw [Succeeds, access_hit (by rw [hline]; exact .inl htag), hline]
  rw [answer, if_pos htag, hphys]
  exact congrArg Outcome.ram (BitVec.zero_add b.addr)

/-- **Protection is per page.**  With the MMU off, in every run, the byte accesses of a kind to a
    page of memory succeed exactly if the test allows them, whatever was accessed before, exactly if
    the test gives one answer for the whole page. -/
theorem protected_per_address_iff (c : Config) (h : Off c) (a : Access) (hram : ¬ IsHw a.addr) :
    PerAddress c a ↔ Uniform c a := by
  constructor
  · intro hper
    -- an access that is allowed makes the others succeed, so they are allowed, too
    have hall : ∀ b d, SameKind a b → SameKind a d → Allowed c b → Allowed c d := by
      intro b d hb hd hok
      have hbd : SameKind b { d with size := .byte } :=
        ⟨hb.page.symm.trans hd.page, hb.super.symm.trans hd.super, hb.data.symm.trans hd.data,
          hb.write.symm.trans hd.write⟩
      have hd' : SameKind a { d with size := .byte } := ⟨hd.page, hd.super, hd.data, hd.write⟩
      refine (hper ⟨default, default, fun _ => 0⟩ [.access b] _ hd' rfl).1 ?_
      exact succeeds_after_allowed h _ (fun hhw => hram ((isHw_page hb.page).2 hhw)) hok hbd
    have hself : SameKind a a := ⟨SamePage.refl _, rfl, rfl, rfl⟩
    exact fun b hb => ⟨hall b a hb hself, hall a b hself hb⟩
  · intro hu s ops b hb _
    have hinv : OffInv c s.tables (run (Mmu.step c) (s.flushAtcAll true) ops) :=
      run_inv_all (fun _ op hi => hi.step h op) ops _ (offInv_flushAtcAll c s)
    refine succeeds_iff_of_uniform h hinv (fun hhw => hram ((isHw_page hb.page).2 hhw))
      fun d hd => ?_
    have had : SameKind a d :=
      ⟨hb.page.trans hd.page, hb.super.trans hd.super, hb.data.trans hd.data,
        hb.write.trans hd.write⟩
    exact (hu d had).trans (hu b hb).symm

/-- The second page of memory. -/
theorem protected_per_address_page_one :
    let write : Access := ⟨0x1000, true, true, true, .byte⟩
    PerAddress Config.plain write ∧ Allowed Config.plain write := by
  intro write
  have huniform : Uniform Config.plain write :=
    uniform_of_aligned (by decide) (by decide) (.inl (by decide))
  exact ⟨(protected_per_address_iff Config.plain ⟨rfl, rfl, rfl, rfl, rfl⟩ write (by decide)).2
    huniform, by decide⟩

/-- Page 0: after a write to address 8 the protected address 0 can be written, and after a write to
    address 0, which faults, address 8 cannot. -/
theorem protected_page_zero :
    let low : Access := ⟨0, true, true, true, .byte⟩
    let high : Access := ⟨8, true, true, true, .byte⟩
    let s := (⟨default, default, fun _ => 0⟩ : Mmu).flushAtcAll true
    (Allowed Config.plain high ∧ ¬ Allowed Config.plain low) ∧
      (Succeeds Config.plain s high ∧ ¬ Succeeds Config.plain s low) ∧
      Succeeds Config.plain (s.access Config.plain high).1 low ∧
      ¬ Succeeds Config.plain (s.access Config.plain low).1 high ∧
        ¬ PerAddress Config.plain low := by
  intro low high s
  have hafter : Succeeds Config.plain (s.access Config.plain high).1 low := by decide +kernel
  refine ⟨by decide, by decide +kernel, hafter, by decide +kernel, fun hper => ?_⟩
  exact absurd
    ((hper ⟨default, default, fun _ => 0⟩ [.access high] low ⟨rfl, rfl, rfl, rfl⟩ rfl).1
    hafter) (by decide)

end Aranym.Mmu
