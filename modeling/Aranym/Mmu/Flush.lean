/-
  What `PFLUSH` leaves in the ATC.
-/
import Aranym.Lib.Pages
import Aranym.Mmu.Atc
import Mathlib.Data.Nat.Bitwise

namespace Aranym.Mmu

open Lib BitVec

variable {c : Config} {s : Mmu} {l : Line} {addr x y : U32} {super global : Bool}

/-! ## Tags -/

/-- The line answers for the address, with a page or with a fault. -/
def Hits (l : Line) (addr : U32) : Prop := l.tag = atcTag addr ∨ l.tag = ~~~(atcTag addr)
deriving Decidable

/-- The two upper bits of the tag differ: no tag of an address, and no complement of one. -/
def Dead (l : Line) : Prop := l.tag.getLsbD 15 ≠ l.tag.getLsbD 14
deriving Decidable

theorem getLsbD_atcTag {i : ℕ} (hi : 14 ≤ i) : (atcTag addr).getLsbD i = false := by
  rw [atcTag, getLsbD_setWidth, getLsbD_ushiftRight, getLsbD_of_ge addr (18 + i) (by omega),
    Bool.and_false]

theorem Dead.not_hits (h : Dead l) (addr : U32) : ¬ Hits l addr := by
  rintro (ht | ht)
  · rw [Dead, ht, getLsbD_atcTag (by decide), getLsbD_atcTag (by decide)] at h
    exact h rfl
  · rw [Dead, ht, getLsbD_not, getLsbD_not, getLsbD_atcTag (by decide),
      getLsbD_atcTag (by decide)] at h
    exact h rfl

theorem dead_empty (h : l.tag = 0x8000) : Dead l := by
  rw [Dead, h]; decide

/-! ## Pages and slots -/

theorem atcTag_eq (h : SamePage 13 x y) : atcTag x = atcTag y := by
  rw [atcTag, atcTag, h.shift (by decide)]

theorem l1Index_eq (h : SamePage 12 x y) : l1Index x = l1Index y := by
  rw [l1Index, l1Index, h]

theorem l2Index_eq (h : SamePage 12 x y) : l2Index x = l2Index y := by
  rw [l2Index, l2Index, h, h.shift (by decide)]

/-- The other half of a page of 8 KB. -/
def sibling (addr : U32) : U32 := addr ^^^ 0x1000#32

theorem samePage_sibling (addr : U32) : SamePage 13 (sibling addr) addr := by
  rw [SamePage, sibling, ushiftRight_xor_distrib, show 0x1000#32 >>> 13 = 0#32 by decide, xor_zero]

theorem samePage_or_sibling (h : SamePage 13 x addr) :
    SamePage 12 x addr ∨ SamePage 12 x (sibling addr) := by
  rw [samePage_iff] at h
  by_cases h12 : x.getLsbD 12 = addr.getLsbD 12
  · refine .inl (samePage_iff.2 fun i hi => ?_)
    rcases Nat.eq_or_lt_of_le hi with rfl | hi
    · exact h12
    · exact h i hi
  · refine .inr (samePage_iff.2 fun i hi => ?_)
    rw [sibling, getLsbD_xor]
    rcases Nat.eq_or_lt_of_le hi with rfl | hi
    · rw [show (0x1000#32).getLsbD 12 = true by decide]
      cases hx : x.getLsbD 12 <;> cases ha : addr.getLsbD 12 <;> simp_all
    · have hz : (0x1000#32).getLsbD i = false := by
        have hb := samePage_iff.1 (show SamePage 13 0x1000#32 0#32 from by decide) i hi
        simpa using hb
      rw [hz, Bool.xor_false]; exact h i hi

theorem sibling_shift (addr : U32) : sibling addr >>> 12 = (addr >>> 12) ^^^ 1#32 := by
  rw [sibling, ushiftRight_xor_distrib, show 0x1000#32 >>> 12 = 1#32 by decide]

theorem l1Index_sibling (addr : U32) : l1Index (sibling addr) = l1Index addr ^^^ 1 := by
  rw [l1Index, l1Index, sibling_shift, toNat_xor]
  exact Nat.xor_mod_two_pow (n := 8)

theorem l2Index_sibling (addr : U32) : l2Index (sibling addr) = l2Index addr ^^^ 1 := by
  rw [l2Index, l2Index, sibling_shift, (samePage_sibling addr).shift (by decide), xor_assoc,
    BitVec.xor_comm 1#32, ← xor_assoc, toNat_xor _ 1#32]
  exact Nat.xor_mod_two_pow (n := 12)

theorem l1Index_lt (addr : U32) : l1Index addr < 256 := Nat.mod_lt _ (by decide)

theorem l2Index_lt (addr : U32) : l2Index addr < 4096 := Nat.mod_lt _ (by decide)

theorem xor_one_ne (n : ℕ) : n ^^^ 1 ≠ n := by
  intro h
  have := congrArg (n ^^^ ·) h
  rw [← Nat.xor_assoc, Nat.xor_self, Nat.zero_xor] at this
  exact absurd this (by decide)

theorem l1Slot_eq (super data write : Bool) (addr : U32) : l1Slot super data write addr =
      super.toNat * 1024 + (data.toNat * 2 + write.toNat) * 256 + l1Index addr := by
  rw [l1Slot]; omega

theorem bank_lt (data write : Bool) : data.toNat * 2 + write.toNat < 4 := by
  cases data <;> cases write <;> decide

/-! ## Flushed lines -/

theorem flush_flush (l : Line) : (l.flush global).flush global = l.flush global := by
  unfold Line.flush
  split_ifs <;> rfl

/-- `t'` is `t` with the lines in `N` flushed. -/
def Flushed (global : Bool) (N : Set ℕ) (t t' : ℕ → Line) : Prop :=
  ∀ n, (n ∈ N → t' n = (t n).flush global) ∧ (n ∉ N → t' n = t n)

theorem Flushed.refl (t : ℕ → Line) : Flushed global ∅ t t :=
  fun _ => ⟨fun h => h.elim, fun _ => rfl⟩

theorem Flushed.trans {N M : Set ℕ} {t t' t'' : ℕ → Line} (h : Flushed global N t t')
    (h' : Flushed global M t' t'') : Flushed global (N ∪ M) t t'' := by
  intro n
  refine ⟨fun hn => ?_, fun hn => ?_⟩
  · by_cases hN : n ∈ N <;> by_cases hM : n ∈ M
    · rw [(h' n).1 hM, (h n).1 hN, flush_flush]
    · rw [(h' n).2 hM, (h n).1 hN]
    · rw [(h' n).1 hM, (h n).2 hN]
    · exact absurd hn fun h => h.elim hN hM
  · rw [(h' n).2 fun h => hn (.inr h), (h n).2 fun h => hn (.inl h)]

theorem flushed_flushLine (t : ℕ → Line) (k : ℕ) : Flushed global {k} t (flushLine global t k) := by
  intro n
  refine ⟨?_, fun hn => Function.update_of_ne hn _ _⟩
  rintro rfl
  exact Function.update_self _ _ _

theorem flushed_foldl (ns : List ℕ) (t : ℕ → Line) :
    Flushed global {n | n ∈ ns} t (ns.foldl (flushLine global) t) := by
  induction ns generalizing t with
  | nil => intro n; exact ⟨fun h => by simp at h, fun _ => rfl⟩
  | cons k ns ih =>
    have hset : {n | n ∈ k :: ns} = ({k} ∪ {n | n ∈ ns} : Set ℕ) := by
      ext n; simp
    rw [hset]
    exact (flushed_flushLine t k).trans (ih _)

/-- The lines at `i` in the four banks from `base` on. -/
def banks (base i : ℕ) : Set ℕ := {n | ∃ j < 4, base + j * 256 + i = n}

theorem flushed_flushBanks (t : ℕ → Line) (base i : ℕ) :
    Flushed global (banks base i) t (flushBanks global t base i) := by
  have h := @flushed_foldl global ((List.range 4).map fun j => base + j * 256 + i) t
  have hset : {n | n ∈ (List.range 4).map fun j => base + j * 256 + i} = banks base i := by
    ext n; simp [banks]
  rw [hset, List.foldl_map] at h
  exact h

/-- The level 1 lines that `mmu_flush_atc` flushes. -/
def l1Flushed (c : Config) (addr : U32) (super : Bool) : Set ℕ :=
  banks (super.toNat * 1024) (l1Index addr) ∪
    if c.mmuPagesize8k then banks (super.toNat * 1024 + 1024) (l1Index addr ^^^ 1) else ∅

theorem flushed_flushL1 (c : Config) (t : ℕ → Line) (addr : U32) (super global : Bool) :
    Flushed global (l1Flushed c addr super) t (flushL1 c t addr super global) := by
  unfold l1Flushed flushL1
  split_ifs
  · exact (flushed_flushBanks t _ _).trans (flushed_flushBanks _ _ _)
  · exact (flushed_flushBanks t _ _).trans (Flushed.refl _)

/-- The level 2 lines. -/
def l2Flushed (c : Config) (addr : U32) (super : Bool) : Set ℕ :=
  {super.toNat * 4096 + l2Index addr} ∪
    if c.mmuPagesize8k then {super.toNat * 4096 + (l2Index addr ^^^ 1)} else ∅

theorem flushed_flushL2 (c : Config) (t : ℕ → Line) (addr : U32) (super global : Bool) :
    Flushed global (l2Flushed c addr super) t (flushL2 c t addr super global) := by
  unfold l2Flushed flushL2
  split_ifs
  · exact (flushed_flushLine t _).trans (flushed_flushLine _ _)
  · exact (flushed_flushLine t _).trans (Flushed.refl _)

theorem Flushed.cases {N : Set ℕ} {t t' : ℕ → Line} (h : Flushed global N t t') (n : ℕ) :
    t' n = t n ∨ Dead (t' n) := by
  by_cases hn : n ∈ N
  · rw [(h n).1 hn]
    unfold Line.flush
    split_ifs
    · exact .inr (dead_empty rfl)
    · exact .inl rfl
  · exact .inl ((h n).2 hn)

theorem flush_true (l : Line) : l.flush true = { l with tag := 0x8000 } := rfl

theorem flush_true_eq_iff (l : Line) : l.flush true = l ↔ l.tag = 0x8000 := by
  constructor
  · intro h; rw [← h]; rfl
  · intro h; rw [flush_true, ← h]

theorem dead_flush_true (l : Line) : Dead (l.flush true) := dead_empty rfl

/-! ## `mmu_flush_atc` -/

/-- In the page of `addr`. -/
def InPage (c : Config) (addr x : U32) : Prop :=
  SamePage (if c.mmuPagesize8k then 13 else 12) x addr

/-- No line of the privilege answers for the page of `addr`, and the other lines are as before. -/
structure FlushedPage (c : Config) (s s' : Mmu) (addr : U32) (super : Bool) : Prop where
  l1 : ∀ x data write, InPage c addr x → ¬ Hits (s'.l1 (l1Slot super data write x)) x
  l2 : ∀ x, InPage c addr x → ¬ Hits (s'.l2 (l2Slot super x)) x
  l1_others : ∀ n, ¬ (super.toNat * 1024 ≤ n ∧ n < super.toNat * 1024 + 1024) → s'.l1 n = s.l1 n
  l2_others : ∀ n, ¬ (super.toNat * 4096 ≤ n ∧ n < super.toNat * 4096 + 4096) → s'.l2 n = s.l2 n

/-- The lines that are missed do not answer for the page, and those that are flushed instead are
    empty. -/
def NothingMissed (s : Mmu) (addr : U32) (super : Bool) : Prop :=
  (∀ data write, ¬ Hits (s.l1 (l1Slot super data write (sibling addr))) addr) ∧
    ∀ j < 4, (s.l1 (super.toNat * 1024 + 1024 + j * 256 + (l1Index addr ^^^ 1))).tag = 0x8000

theorem xor_one_lt {n k : ℕ} (h : n < 2 ^ (k + 1)) : n ^^^ 1 < 2 ^ (k + 1) :=
  Nat.xor_lt_two_pow h (Nat.one_lt_two_pow (by omega))

theorem l1Slot_flushed (h : SamePage 12 x addr) (data write : Bool) :
    l1Slot super data write x ∈ l1Flushed c addr super :=
  .inl ⟨_, bank_lt data write, by rw [l1Slot_eq, l1Index_eq h]⟩

theorem l1Slot_sibling_not_flushed (data write : Bool) :
    l1Slot super data write (sibling addr) ∉ l1Flushed c addr super := by
  have hb := bank_lt data write
  have hi := l1Index_lt addr
  have hi' : l1Index addr ^^^ 1 < 256 := xor_one_lt (k := 7) hi
  have hne := xor_one_ne (l1Index addr)
  have hslot := l1Slot_eq super data write (sibling addr)
  rw [l1Index_sibling] at hslot
  rintro (⟨j, hj, hn⟩ | hn)
  · omega
  · split_ifs at hn
    · obtain ⟨j, hj, hn⟩ := hn
      omega
    · exact hn

/-- Outside of the array of the privilege only the four banks behind it are flushed. -/
theorem l1Flushed_others {n : ℕ} (hn : ¬ (super.toNat * 1024 ≤ n ∧ n < super.toNat * 1024 + 1024)) :
    n ∈ l1Flushed c addr super ↔
      c.mmuPagesize8k = true ∧ n ∈ banks (super.toNat * 1024 + 1024) (l1Index addr ^^^ 1) := by
  have hi := l1Index_lt addr
  have hown : n ∉ banks (super.toNat * 1024) (l1Index addr) := by
    rintro ⟨j, hj, rfl⟩
    omega
  unfold l1Flushed
  cases c.mmuPagesize8k with
  | false => simpa using hown
  | true => simp [hown]

theorem l2Slot_flushed (h : InPage c addr x) : l2Slot super x ∈ l2Flushed c addr super := by
  unfold InPage at h
  unfold l2Flushed
  split_ifs at h ⊢
  · rcases samePage_or_sibling h with h | h
    · exact .inl (by rw [l2Slot, l2Index_eq h]; rfl)
    · exact .inr (by rw [l2Slot, l2Index_eq h, l2Index_sibling]; rfl)
  · exact .inl (by rw [l2Slot, l2Index_eq h]; rfl)

theorem l2Flushed_others {n : ℕ} (hn : ¬ (super.toNat * 4096 ≤ n ∧ n < super.toNat * 4096 + 4096)) :
    n ∉ l2Flushed c addr super := by
  have hi := l2Index_lt addr
  have hi' : l2Index addr ^^^ 1 < 4096 := xor_one_lt (k := 11) hi
  rintro (rfl | h)
  · omega
  · split_ifs at h
    · obtain rfl : n = _ := h
      omega
    · exact h

theorem flushedPage_of_l1 (h1 : ∀ x data write, InPage c addr x →
      ¬ Hits ((s.flushAtc c addr super true).l1 (l1Slot super data write x)) x)
    (h2 : ∀ n, ¬ (super.toNat * 1024 ≤ n ∧ n < super.toNat * 1024 + 1024) →
      (s.flushAtc c addr super true).l1 n = s.l1 n) :
    FlushedPage c s (s.flushAtc c addr super true) addr super := by
  refine ⟨h1, fun x hx => ?_, h2,
    fun n hn => (flushed_flushL2 c s.l2 addr super true n).2 (l2Flushed_others hn)⟩
  show ¬ Hits (flushL2 c s.l2 addr super true _) x
  rw [(flushed_flushL2 c s.l2 addr super true _).1 (l2Slot_flushed hx)]
  exact (dead_flush_true _).not_hits x

theorem flushL1_own (h : SamePage 12 x addr) (data write : Bool) :
    ¬ Hits ((s.flushAtc c addr super true).l1 (l1Slot super data write x)) x := by
  show ¬ Hits (flushL1 c s.l1 addr super true _) x
  rw [(flushed_flushL1 c s.l1 addr super true _).1 (l1Slot_flushed h data write)]
  exact (dead_flush_true _).not_hits x

theorem flushL1_sibling (data write : Bool) :
    (s.flushAtc c addr super true).l1 (l1Slot super data write (sibling addr)) =
      s.l1 (l1Slot super data write (sibling addr)) :=
  (flushed_flushL1 c s.l1 addr super true _).2 (l1Slot_sibling_not_flushed data write)

theorem flushedPage_of_4k (h4 : c.mmuPagesize8k = false) :
    FlushedPage c s (s.flushAtc c addr super true) addr super := by
  refine flushedPage_of_l1 (fun x data write hx => flushL1_own ?_ data write) fun n hn => ?_
  · unfold InPage at hx; rwa [h4] at hx
  · refine (flushed_flushL1 c s.l1 addr super true n).2 fun hmem => ?_
    rw [l1Flushed_others hn, h4] at hmem
    cases hmem.1

/-- With pages of 8 KB a flush is right exactly where the lines that it misses do not matter. -/
theorem flushedPage_iff_of_8k (h8 : c.mmuPagesize8k) :
    FlushedPage c s (s.flushAtc c addr super true) addr super ↔ NothingMissed s addr super := by
  have hpage : ∀ {x}, InPage c addr x ↔ SamePage 13 x addr := by
    intro x; unfold InPage; rw [h8]; rfl
  have htag : atcTag (sibling addr) = atcTag addr := atcTag_eq (samePage_sibling addr)
  constructor
  · intro h
    refine ⟨fun data write hhit => ?_, fun j hj => ?_⟩
    · have hmiss := h.l1 (sibling addr) data write (hpage.2 (samePage_sibling addr))
      rw [flushL1_sibling] at hmiss
      unfold Hits at hmiss hhit
      rw [htag] at hmiss
      exact hmiss hhit
    · have hout : ¬ (super.toNat * 1024 ≤
        super.toNat * 1024 + 1024 + j * 256 + (l1Index addr ^^^ 1) ∧
          super.toNat * 1024 + 1024 + j * 256 + (l1Index addr ^^^ 1) <
            super.toNat * 1024 + 1024) := by omega
      have hmem := (l1Flushed_others (c := c) hout).2 ⟨h8, j, hj, rfl⟩
      have hkeep := h.l1_others _ hout
      rw [← flush_true_eq_iff]
      exact ((flushed_flushL1 c s.l1 addr super true _).1 hmem).symm.trans hkeep
  · rintro ⟨hmiss, hempty⟩
    refine flushedPage_of_l1 (fun x data write hx => ?_) fun n hn => ?_
    · rcases samePage_or_sibling (hpage.1 hx) with h | h
      · exact flushL1_own h data write
      · have hslot : l1Slot super data write x = l1Slot super data write (sibling addr) := by
          rw [l1Slot, l1Slot, l1Index_eq h]
        rw [hslot, flushL1_sibling]
        unfold Hits
        rw [atcTag_eq (hpage.1 hx)]
        exact hmiss data write
    · by_cases hmem : n ∈ l1Flushed c addr super
      · obtain ⟨-, j, hj, rfl⟩ := (l1Flushed_others hn).1 hmem
        exact ((flushed_flushL1 c s.l1 addr super true _).1 hmem).trans
          ((flush_true_eq_iff _).2 (hempty j hj))
      · exact (flushed_flushL1 c s.l1 addr super true n).2 hmem

/-- **`mmu_flush_atc(addr, super, true)` flushes the page of `addr`, and nothing else**, exactly if
    the pages are of 4 KB or nothing is missed. -/
theorem flushAtc_complete_iff (c : Config) (s : Mmu) (addr : U32) (super : Bool) :
    FlushedPage c s (s.flushAtc c addr super true) addr super ↔
      (c.mmuPagesize8k = true → NothingMissed s addr super) := by
  cases h8 : c.mmuPagesize8k with
  | false => exact ⟨fun _ => nofun, fun _ => flushedPage_of_4k h8⟩
  | true => exact (flushedPage_iff_of_8k h8).trans ⟨fun h _ => h, fun h => h rfl⟩

/-- A machine without an enabled MMU or TTR. -/
def Config.plain : Config where
  mmuEnabled := false
  mmuPagesize8k := false
  urp := 0
  srp := 0
  itt0 := 0
  itt1 := 0
  dtt0 := 0
  dtt1 := 0
  fastRAMSize := 0
  videoRAMBase := 0xf0000000
  protect2k := false
  hwModule := fun _ => true
  hwGetL := fun _ => 0

/-- A user data read of the second half of a page of 8 KB is not flushed. -/
theorem flushAtc_misses_half :
    let c := { Config.plain with mmuPagesize8k := true }
    let s : Mmu := ⟨default, default, fun _ => 0⟩
    let s₁ := ((s.flushAtcAll true).access c ⟨0x00013000, false, true, false, .long⟩).1
    Hits ((s₁.flushAtc c 0x00012000 false true).l1
      (l1Slot false true false 0x00013000)) 0x00013000 ∧
      ¬ FlushedPage c s₁ (s₁.flushAtc c 0x00012000 false true) 0x00012000 false := by
  intro c s s₁
  have hhit : Hits ((s₁.flushAtc c 0x00012000 false true).l1 (l1Slot false true false 0x00013000))
      0x00013000 := by decide +kernel
  exact ⟨hhit, fun h => h.l1 0x00013000 true false (by show SamePage 13 _ _; decide) hhit⟩

end Aranym.Mmu
