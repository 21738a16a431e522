/-
  The ATC as a cache of the translation.

  A level 1 line that answers for an access answers as the translation without a cache
  would, and a level 2 line that answers for a page holds what the registers or the
  tables say about it: both levels are `Truthful`.
-/
import Aranym.Lib.Run
import Aranym.Mmu.Lines

namespace Aranym.Mmu

open Lib

variable {c : Config} {m₀ : Tables} {s : Mmu} {a b : Access} {l : Line} {x y : U32}

/-! ## Clean steps -/

/-- The level 2 line of an access is filled: it is of another page, or a write has to mark the
    page. -/
def Refills (s : Mmu) (a : Access) : Prop :=
  (s.l2 (l2Slot a.super a.addr)).tag ≠ atcTag a.addr ∨
    check a (s.l2 (l2Slot a.super a.addr)) = .restart
deriving Decidable

/-- An access that misses level 1 and meets none of the defects:
    * a level 2 line that answers was filled by a match of the access's own space, or without one;
    * if the access faults, its level 1 line is empty and was not one of a hardware register;
    * if the tables are searched, the walk does not spoil them. -/
structure CleanMiss (c : Config) (s : Mmu) (a : Access) : Prop where
  space : (s.l2 (l2Slot a.super a.addr)).tag = atcTag a.addr →
    OwnSpace c a (s.l2 (l2Slot a.super a.addr))
  slot : translate c s.tables a = none → Dead (s.l1 a.slot) ∧ (s.l1 a.slot).hw = false
  tables : Refills s a → UsesTables c a → SafeWalk c s.tables a

/-- A hit or a clean miss. -/
def Clean (c : Config) (s : Mmu) : Op → Prop
  | .access a => Hits (s.l1 a.slot) a.addr ∨ CleanMiss c s a
  | .flush _ _ _ => True
  | .flushAll _ => True

/-! ## The invariant -/

/-- The slot of a page. -/
def pageSlot2 (k : Bool × U32) : ℕ := l2Slot k.1 k.2

/-- Both caches are truthful. -/
structure Inv (c : Config) (m₀ : Tables) (s : Mmu) : Prop where
  marked : Marked c m₀ s.tables
  l1 : Truthful Access.slot (fun a l => Hits l a.addr)
    (fun a l => Transparent c m₀ a (answer a l)) s.l1
  l2 : Truthful pageSlot2 (fun k l => l.tag = atcTag k.2) (fun k l => Holds c m₀ k.1 k.2 l) s.l2

variable {m : Tables}

theorem Marked.translate (h : Marked c m₀ m) (a : Access) :
    Mmu.translate c m a = Mmu.translate c m₀ a := by
  unfold Mmu.translate
  rcases h.grant a.addr a.super a.write with ⟨h1, h2⟩ | ⟨d, d₀, h1, h2, hn⟩
  · rw [h1, h2]
  · rw [h1, h2]
    dsimp only
    rw [frame_near hn, hn.and (k := 4) (by decide)]

theorem l1Slot_lt (super data write : Bool) (addr : U32) : l1Slot super data write addr < 2048 := by
  have h1 := bank_lt data write
  have h2 := l1Index_lt addr
  have h3 := Bool.toNat_lt super
  rw [l1Slot_eq]; omega

theorem l2Slot_lt (super : Bool) (addr : U32) : l2Slot super addr < 8192 := by
  have h1 := l2Index_lt addr
  have h2 := Bool.toNat_lt super
  rw [l2Slot]; omega

theorem not_hits_flushAtcAll (s : Mmu) (a : Access) :
    ¬ Hits ((s.flushAtcAll true).l1 a.slot) a.addr := by
  have hl : (s.flushAtcAll true).l1 a.slot = (s.l1 a.slot).flush true :=
    if_pos (l1Slot_lt a.super a.data a.write a.addr)
  rw [hl]
  exact (dead_flush_true _).not_hits _

theorem tag_flushAtcAll_ne (s : Mmu) (super : Bool) (addr : U32) :
    ((s.flushAtcAll true).l2 (l2Slot super addr)).tag ≠ atcTag addr := by
  have hl : (s.flushAtcAll true).l2 (l2Slot super addr) = (s.l2 (l2Slot super addr)).flush true :=
    if_pos (l2Slot_lt super addr)
  rw [hl]
  exact fun ht => (dead_flush_true (s.l2 (l2Slot super addr))).not_hits addr (.inl ht)

theorem inv_flushAtcAll (c : Config) (s : Mmu) : Inv c s.tables (s.flushAtcAll true) :=
  ⟨.refl _, fun a ha => absurd ha (not_hits_flushAtcAll s a),
    fun k hk => absurd hk (tag_flushAtcAll_ne s k.1 k.2)⟩

/-! ## The level 2 line -/

theorem samePage_of_l2 (ht : atcTag x = atcTag y) (hi : l2Index x = l2Index y) :
    SamePage 12 x y := by
  rw [samePage_iff]
  have htag : ∀ i, 18 ≤ i → x.getLsbD i = y.getLsbD i := fun i hi => getLsbD_of_atcTag ht hi
  intro i h12
  by_cases h18 : 18 ≤ i
  · exact htag i h18
  · have hbit := congrArg (fun n => n.testBit (i - 12)) hi
    simp only [l2Index, show (4096 : ℕ) = 2 ^ 12 from rfl, Nat.testBit_mod_two_pow,
      show i - 12 < 12 by omega, decide_true, Bool.true_and, BitVec.testBit_toNat,
        BitVec.getLsbD_xor,
      BitVec.getLsbD_ushiftRight, Nat.add_sub_cancel' h12, htag (20 + (i - 12)) (by omega)] at hbit
    simpa using hbit

/-- **Tags identify pages**: with one index of either level and one tag, two addresses are in one
    page, and a tag, a complement of a tag and the tag 0x8000 of an empty line are different. -/
theorem tags_identify_pages (x y : U32) :
    (l1Index x = l1Index y → atcTag x = atcTag y → x >>> 12 = y >>> 12) ∧
      (l2Index x = l2Index y → atcTag x = atcTag y → x >>> 12 = y >>> 12) ∧
      atcTag x ≠ ~~~atcTag y ∧ atcTag x ≠ 0x8000 ∧ ~~~atcTag x ≠ 0x8000 := by
  refine ⟨fun hi ht => samePage_of_l1 ht hi, fun hi ht => samePage_of_l2 ht hi, atcTag_ne_not x y,
    fun h => ?_, fun h => ?_⟩
  · have hbit : (atcTag x).getLsbD 15 = true := by rw [h]; rfl
    rw [getLsbD_atcTag (by decide)] at hbit
    cases hbit
  · have hbit : (~~~atcTag x).getLsbD 14 = false := by rw [h]; rfl
    rw [BitVec.getLsbD_not, getLsbD_atcTag (by decide)] at hbit
    cases hbit

theorem samePage_of_l2Slot {super super' : Bool} (hs : l2Slot super x = l2Slot super' y)
    (ht : atcTag x = atcTag y) : super = super' ∧ SamePage 12 x y := by
  have hx := l2Index_lt x
  have hy := l2Index_lt y
  unfold l2Slot at hs
  exact ⟨eq_of_toNat_eq (by omega), samePage_of_l2 ht (by omega)⟩

/-- The loop of `mmu_fill_atc_l1` ends after at most one fill, with a line that decides the
    access. -/
theorem lookup_spec (hi : Inv c m₀ s) (hc : CleanMiss c s a) :
    ∃ passed l m, settle c a 2 (lookupL2 c s a).1 (lookupL2 c s a).2 = some (passed, l, m) ∧
      Filled c m₀ a (l, m) ∧
      (passed = false ∧ check a l = .fail ∨ passed = true ∧ check a l = .pass) := by
  -- a line that need not be filled again
  have hdone : ∀ (n : ℕ) (r : Line × Tables), Filled c m₀ a r → check a r.1 ≠ .restart →
      ∃ passed l m, settle c a (n + 1) r.1 r.2 = some (passed, l, m) ∧ Filled c m₀ a (l, m) ∧
        (passed = false ∧ check a l = .fail ∨ passed = true ∧ check a l = .pass) := by
    intro n r hf hr
    rw [settle]
    cases hcheck : check a r.1 with
    | fail => exact ⟨false, r.1, r.2, rfl, hf, .inl ⟨rfl, hcheck⟩⟩
    | pass => exact ⟨true, r.1, r.2, rfl, hf, .inr ⟨rfl, hcheck⟩⟩
    | restart => exact absurd hcheck hr
  unfold lookupL2
  by_cases ht : (s.l2 (l2Slot a.super a.addr)).tag = atcTag a.addr
  · rw [if_neg (not_not.2 ht)]
    by_cases hr : check a (s.l2 (l2Slot a.super a.addr)) = .restart
    · have hf := fill_spec hi.marked (hc.tables (.inr hr)) (s.l2 (l2Slot a.super a.addr))
      rw [settle, hr]
      exact hdone 0 _ hf (check_fill_ne_restart _ _ _ _)
    · exact hdone 1 (_, _) ⟨ht, hi.l2 (a.super, a.addr) ht, hc.space ht, hi.marked⟩ hr
  · rw [if_pos ht]
    have hf := fill_spec hi.marked (hc.tables (.inl ht)) (s.l2 (l2Slot a.super a.addr))
    exact hdone 1 _ hf (check_fill_ne_restart _ _ _ _)

/-! ## The level 1 line -/

theorem install_cases (c : Config) (a : Access) (l : Line) :
    (InHwRange (a.addr + l.phys) ∧
      install c a l = (false, { l with hw := true, tag := ~~~l.tag })) ∨
    (¬ InHwRange (a.addr + l.phys) ∧ (a.addr + l.phys) &&& 0xfff00000 = 0xfff00000 ∧
      install c a l =
        (false, { l with hw := true, phys := l.phys - 0xff000000, tag := ~~~l.tag })) ∨
    (¬ IsHw (a.addr + l.phys) ∧ testRamBoundary c (a.addr + l.phys) 1 a.super a.write = false ∧
      install c a l = (false, { l with busFault := true, tag := ~~~l.tag })) ∨
    (¬ IsHw (a.addr + l.phys) ∧ testRamBoundary c (a.addr + l.phys) 1 a.super a.write = true ∧
      install c a l = (true, l)) := by
  unfold install
  by_cases h1 : InHwRange (a.addr + l.phys)
  · exact .inl ⟨h1, if_pos h1⟩
  · rw [if_neg h1]
    by_cases h2 : (a.addr + l.phys) &&& 0xfff00000 = 0xfff00000
    · exact .inr (.inl ⟨h1, h2, if_pos h2⟩)
    · have hhw : ¬ IsHw (a.addr + l.phys) := fun h => h.elim h1 h2
      rw [if_neg h2]
      cases h3 : testRamBoundary c (a.addr + l.phys) 1 a.super a.write with
      | false => exact .inr (.inr (.inl ⟨hhw, rfl, rfl⟩))
      | true => exact .inr (.inr (.inr ⟨hhw, rfl, rfl⟩))

theorem not_tag_ne (ht : l.tag = atcTag a.addr) : ~~~l.tag ≠ atcTag a.addr := by
  rw [ht]; exact fun h => atcTag_ne_not _ _ h.symm

theorem install_answer (ht : l.tag = atcTag a.addr) : Hits (install c a l).2 a.addr ∧
      answer a (install c a l).2 =
        if (install c a l).1 then .ram ((install c a l).2.phys + a.addr)
          else redo a (install c a l).2 := by
  have hneg : Hits { l with tag := ~~~l.tag } a.addr := .inr (congrArg (~~~ ·) ht)
  rcases install_cases c a l with ⟨-, h⟩ | ⟨-, -, h⟩ | ⟨-, -, h⟩ | ⟨-, -, h⟩ <;> rw [h]
  · exact ⟨hneg, if_neg (not_tag_ne ht)⟩
  · exact ⟨hneg, if_neg (not_tag_ne ht)⟩
  · exact ⟨hneg, if_neg (not_tag_ne ht)⟩
  · exact ⟨.inl ht, if_pos ht⟩

theorem install_served (ht : l.tag = atcTag a.addr) (hw : l.hw = false) :
    Served c a (a.addr + l.phys) (answer a (install c a l).2) := by
  rw [(install_answer ht).2]
  have hcomm : l.phys + a.addr = a.addr + l.phys := add_comm _ _
  rcases install_cases c a l with ⟨h1, h⟩ | ⟨h1, h2, h⟩ | ⟨h1, h3, h⟩ | ⟨h1, h3, h⟩ <;> rw [h]
  · exact ⟨.inl h1, hcomm.trans (if_pos h1).symm⟩
  · refine ⟨.inr h2, ?_⟩
    rw [hwAddr, if_neg h1, ← hcomm]
    exact sub_add_eq_add_sub _ _ _
  · have hredo : redo a { l with busFault := true, tag := ~~~l.tag } =
        .busError (mmuBusError a) := by
      unfold redo; dsimp only; rw [hw]; rfl
    rw [hredo]
    exact ⟨rfl, h1, _, SamePage.refl _, h3⟩
  · exact ⟨h1, hcomm, _, SamePage.refl _, h3⟩

/-- The state after a fill. -/
def filledState (s : Mmu) (a : Access) (cl l : Line) (m : Tables) : Mmu :=
  ⟨Function.update s.l1 a.slot cl, Function.update s.l2 (l2Slot a.super a.addr) l, m⟩

theorem slow_of_settle {passed : Bool}
    (h : settle c a 2 (lookupL2 c s a).1 (lookupL2 c s a).2 = some (passed, l, m)) : slow c s a =
      let r := if passed then install c a l
        else (false, { s.l1 a.slot with tag := ~~~(s.l1 a.slot).tag })
      (filledState s a r.2 l m, if r.1 then .ram (r.2.phys + a.addr) else redo a r.2) := by
  unfold slow fillAtcL1
  dsimp only
  rw [h]; rfl

/-- **The slow path of a clean access**: it faults and complements an empty line, or it installs a
    line and answers with it. -/
theorem slow_spec (hi : Inv c m₀ s) (hc : CleanMiss c s a) : ∃ l m, Filled c m₀ a (l, m) ∧
      (translate c m₀ a = none ∧ Dead (s.l1 a.slot) ∧
          slow c s a = (filledState s a { s.l1 a.slot with tag := ~~~(s.l1 a.slot).tag } l m,
            .busError (mmuBusError a)) ∨
        translate c m₀ a = some (a.addr + l.phys) ∧ check a l = .pass ∧
          slow c s a = (filledState s a (install c a l).2 l m, answer a (install c a l).2)) := by
  obtain ⟨passed, l, m, hset, hf, hp⟩ := lookup_spec hi hc
  refine ⟨l, m, hf, ?_⟩
  rw [slow_of_settle hset]
  rcases hp with ⟨rfl, hcheck⟩ | ⟨rfl, hcheck⟩
  · have htr := check_fail hf.holds hf.own hcheck
    obtain ⟨hdead, hhw⟩ := hc.slot (by rw [hi.marked.translate a]; exact htr)
    refine .inl ⟨htr, hdead, ?_⟩
    have hredo : redo a { s.l1 a.slot with tag := ~~~(s.l1 a.slot).tag } =
        .busError (mmuBusError a) := by
      unfold redo; dsimp only; rw [hhw]; rfl
    exact Prod.ext rfl hredo
  · refine .inr ⟨check_pass hf.holds hf.own hcheck, hcheck, ?_⟩
    exact Prod.ext rfl (install_answer hf.tag).2.symm

theorem dead_not (h : Dead l) : Dead { l with tag := ~~~l.tag } := by
  unfold Dead at h ⊢
  intro he
  apply h
  simpa using he

/-! ## Steps -/

theorem access_hit (h : Hits (s.l1 a.slot) a.addr) :
    s.access c a = (s, answer a (s.l1 a.slot)) := by
  unfold access answer
  by_cases ht : (s.l1 a.slot).tag = atcTag a.addr
  · rw [if_pos ht]; exact if_pos ht
  · rw [if_neg ht]
    exact (if_neg ht).trans (if_pos (h.resolve_left ht))

theorem access_miss (h : ¬ Hits (s.l1 a.slot) a.addr) : s.access c a = slow c s a := by
  exact (if_neg fun ht => h (.inl ht)).trans (if_neg fun ht => h (.inr ht))

theorem inv_filled (hi : Inv c m₀ s) {cl : Line} (hf : Filled c m₀ a (l, m))
    (hcl : ∀ b : Access, b.slot = a.slot → Hits cl b.addr → Transparent c m₀ b (answer b cl)) :
    Inv c m₀ (filledState s a cl l m) := by
  refine ⟨hf.marked, hi.l1.update hcl, hi.l2.update fun k hk hhit => ?_⟩
  obtain ⟨hsuper, hpage⟩ := samePage_of_l2Slot hk (hhit.symm.trans hf.tag)
  rw [hsuper]
  exact hf.holds.page hpage.symm

/-- A clean access keeps the invariant and gives what the tables say. -/
theorem inv_access (hi : Inv c m₀ s) (hc : Clean c s (.access a)) :
    Inv c m₀ (s.access c a).1 ∧ Transparent c m₀ a (s.access c a).2 := by
  by_cases hh : Hits (s.l1 a.slot) a.addr
  · rw [access_hit hh]
    exact ⟨hi, hi.l1 a hh⟩
  · obtain ⟨l, m, hf, ⟨htr, hdead, hslow⟩ | ⟨htr, -, hslow⟩⟩ := slow_spec hi (hc.resolve_left hh)
    · rw [access_miss hh, hslow]
      refine ⟨inv_filled hi hf fun b _ hb => absurd hb ((dead_not hdead).not_hits _), ?_⟩
      unfold Transparent; rw [htr]
    · have hans : Transparent c m₀ a (answer a (install c a l).2) := by
        unfold Transparent; rw [htr]; exact install_served hf.tag hf.holds.hw
      rw [access_miss hh, hslow]
      refine ⟨inv_filled hi hf fun b hb hbit => ?_, hans⟩
      exact transparent_answer (sameKind_of_hits hb.symm (install_answer hf.tag).1 hbit) hans

theorem inv_flushed (hi : Inv c m₀ s) {global : Bool} {N M : Set ℕ} {t t' : ℕ → Line}
    (h1 : Flushed global N s.l1 t) (h2 : Flushed global M s.l2 t') :
    Inv c m₀ ⟨t, t', s.tables⟩ := by
  refine ⟨hi.marked, hi.l1.clear fun n => ?_, hi.l2.clear fun n => ?_⟩
  · exact (h1.cases n).imp_right fun hd a => hd.not_hits a.addr
  · exact (h2.cases n).imp_right fun hd k hk => hd.not_hits k.2 (.inl hk)

theorem flushed_below (global : Bool) (k : ℕ) (t : ℕ → Line) :
    Flushed global {n | n < k} t fun n => if n < k then (t n).flush global else t n :=
  fun _ => ⟨fun h => if_pos h, fun h => if_neg h⟩

theorem inv_step (hi : Inv c m₀ s) {op : Op} (hc : Clean c s op) : Inv c m₀ (step c s op).1 := by
  cases op with
  | access a => exact (inv_access hi hc).1
  | flush addr super global =>
    exact inv_flushed hi (flushed_flushL1 c s.l1 addr super global)
      (flushed_flushL2 c s.l2 addr super global)
  | flushAll global =>
    exact inv_flushed hi (flushed_below global 2048 _) (flushed_below global 8192 _)

/-- **The ATC is transparent** along every run of clean steps from `mmu_flush_atc_all(true)`: every
    access has the outcome of the translation without a cache, from the registers and the tables at
    the start. -/
theorem atc_transparent (c : Config) (s : Mmu) (ops : List Op)
    (h : Along (step c) (Clean c) (s.flushAtcAll true) ops) :
    Along (step c) (fun s' op => ∀ a, op = .access a → Transparent c s.tables a (s'.access c a).2)
      (s.flushAtcAll true) ops := by
  refine along_of_inv (P := Inv c s.tables) (fun s' op hi hc => inv_step hi hc) ?_ ops _
    (inv_flushAtcAll c s) h
  rintro s' op hi hc a rfl
  exact (inv_access hi hc).2

/-- Tables for the pages from `0x5000` on: a page that is used, then an invalid one. -/
def demoTables : Tables := fun w =>
  if w = 0x1000 then 0x200a else if w = 0x2000 then 0x300a else if w = 0x3014 then 0x7009 else 0

/-- Translation is on. -/
def demoConfig : Config := { Config.plain with mmuEnabled := true, urp := 0x1000 }

/-- Empty caches. -/
def demoMmu : Mmu := ⟨default, default, demoTables⟩

/-- A read, a write to the page, which has to be marked for it, a fetch from a page that is not
    there, and a read again. -/
def demoRun : List Op :=
  [.access ⟨0x5004, false, true, false, .long⟩, .access ⟨0x5008, false, true, true, .long⟩,
    .access ⟨0x6000, false, false, false, .word⟩, .access ⟨0x5004, false, true, false, .long⟩]

theorem harmless_update {w v : U32} (hn : Near v (m w)) (hl : m w &&& 3 ≠ 2) :
    Harmless c m (Function.update m w v) := by
  intro w' hw'
  by_cases he : w' = w
  · subst he
    rw [Function.update_self]
    exact ⟨hn, fun hi => hl hi.1⟩
  · exact absurd (Function.update_of_ne he _ _) hw'

theorem atc_transparent_demo :
    Along (step demoConfig)
      (fun s' op => ∀ a, op = .access a →
        Transparent demoConfig demoTables a (s'.access demoConfig a).2)
      (demoMmu.flushAtcAll true) demoRun := by
  refine atc_transparent demoConfig demoMmu demoRun ⟨?_, ?_, ?_, ?_, trivial⟩
  · refine .inr ⟨by decide +kernel, by decide +kernel, fun _ _ => ⟨nofun, ?_⟩⟩
    intro w hw
    exact absurd rfl hw
  · refine .inr ⟨by decide +kernel, by decide +kernel, fun _ _ => ⟨fun _ => by decide +kernel, ?_⟩⟩
    have h : after (walk demoConfig ⟨0x5008, false, true, true, .long⟩) demoTables =
      Function.update demoTables 0x3014 0x7019 := rfl
    show Harmless demoConfig demoTables
      (after (walk demoConfig ⟨0x5008, false, true, true, .long⟩) demoTables)
    exact harmless_update (by decide) (by decide)
  · refine .inr ⟨by decide +kernel, by decide +kernel, fun _ _ => ⟨nofun, ?_⟩⟩
    intro w hw
    exact absurd rfl hw
  · exact .inl (by decide +kernel)

example : outputs (step demoConfig) (demoMmu.flushAtcAll true) demoRun =
    [some (.ram 0x7004), some (.ram 0x7008),
      some (.busError ⟨0x6000, 0x542, 0⟩), some (.ram 0x7004)] := by decide +kernel

/-- A data read leaves a level 2 line that no instruction can be fetched through: `DTT0` matches the
    page, `ITT0` and `ITT1` do not, and the MMU is off. -/
theorem fetch_after_read_faults :
    let c := { Config.plain with dtt0 := 0x0000c000 }
    let fetch : Access := ⟨0x00001000, false, false, false, .word⟩
    let s := (((⟨default, default, fun _ => 0⟩ : Mmu).flushAtcAll true).access c
      ⟨0x00001000, false, true, false, .word⟩).1
    (s.access c fetch).2 = .busError (mmuBusError fetch) ∧
      translate c (fun _ => 0) fetch = some 0x00001000 ∧
      ¬ Transparent c (fun _ => 0) fetch (s.access c fetch).2 := by
  intro c fetch s
  have ho : (s.access c fetch).2 = .busError (mmuBusError fetch) := by decide +kernel
  have ht : translate c (fun _ => 0) fetch = some 0x00001000 := by decide +kernel
  refine ⟨ho, ht, ?_⟩
  unfold Transparent
  rw [ht, ho]
  rintro ⟨-, -, x, hx, hb⟩
  -- there is memory in the whole page
  have hdiv : x.toNat / 4096 = 1 := samePage_iff_div.1 hx
  have hle : x.toNat ≤ fastRAMBegin + c.fastRAMSize - 1 := by
    show x.toNat ≤ 0xffffff
    omega
  rw [testRamBoundary, if_pos hle] at hb
  cases hb

end Aranym.Mmu
