/-
  The checks of the translation cache come to an end.

  Blocks jump to each other, in cycles too.  A block is marked before the blocks
  it jumps to are checked, so that every call below it has one block less that
  waits for a check.
-/
import Aranym.Jit.Model

namespace Aranym.Jit

open Lib List

variable {s : Cache} {pc : ℕ} {bi : BlockInfo}

theorem calledCheckChecksum_rel {R : Cache → Cache → Prop} (hrefl : ∀ s, R s s)
    (htrans : ∀ {s s' s''}, R s s' → R s' s'' → R s s'') {check : Cache → ℕ → Bool × Cache}
    (hc : ∀ s pc, R s (check s pc).2) :
    ∀ (ts : List ℕ) (s : Cache), R s (calledCheckChecksum check s ts).2
  | [], s => hrefl s
  | t :: ts, s => by
    rw [calledCheckChecksum]
    have ht := hc s t
    generalize check s t = r at ht
    obtain ⟨isgood, s'⟩ := r
    simp only
    split_ifs
    · exact htrans ht (calledCheckChecksum_rel hrefl htrans hc ts s')
    · exact ht

/-- How many blocks need a check. -/
def Cache.waiting (s : Cache) : ℕ := s.blocks.countP fun b => b.2.status = .needCheck

namespace Cache

variable {f : BlockInfo → BlockInfo}

theorem waiting_le_length (s : Cache) : s.waiting ≤ s.blocks.length := countP_le_length

theorem waiting_alter_le (hf : ∀ bi, (f bi).status ≠ .needCheck) (s : Cache) (pc : ℕ) :
    (s.alter pc f).waiting ≤ s.waiting := by
  rw [waiting, waiting, alter, Heap.alter, countP_map]
  apply countP_mono_left
  rintro ⟨k, bi⟩ -
  by_cases hk : k = pc
  · simp [hk, hf]
  · simp [hk]

theorem waiting_alter_lt (hf : ∀ bi, (f bi).status ≠ .needCheck) (h : s.get pc = some bi)
    (hbi : bi.status = .needCheck) : (s.alter pc f).waiting < s.waiting := by
  obtain ⟨l, r, hlr⟩ := append_of_mem (Heap.mem_of_get h)
  have hle : ∀ h : Heap ℕ BlockInfo,
      (h.alter pc f).countP (fun b => b.2.status = .needCheck) ≤ h.countP fun b =>
      b.2.status = .needCheck :=
    fun h => waiting_alter_le hf ⟨s.mem, h, s.active, s.dormant⟩ pc
  have hl := hle l
  have hr := hle r
  have hsplit : Heap.alter (l ++ (pc, bi) :: r) pc f =
      .alter l pc f ++ (pc, f bi) :: Heap.alter r pc f := by
    simp [Heap.alter]
  rw [waiting, waiting, alter, hlr, hsplit, countP_append, countP_append,
    countP_cons_of_neg (by simpa using hf bi), countP_cons_of_pos (by simpa using hbi)]
  omega

end Cache

/-- A check leaves no more blocks waiting than before. -/
theorem waiting_blockCheckChecksum : ∀ (fuel : ℕ) (s : Cache) (pc : ℕ),
    (blockCheckChecksum fuel s pc).2.waiting ≤ s.waiting
  | 0, _, _ => le_rfl
  | fuel + 1, s, pc => by
    rw [blockCheckChecksum]
    cases h : s.get pc with
    | none => exact le_rfl
    | some bi =>
      have hmark : (s.setStatus pc .checking).waiting ≤ s.waiting :=
  Cache.waiting_alter_le (by simp) s pc
      have hbelow : _ ≤ s.waiting :=
        (calledCheckChecksum_rel (R := fun s s' => s'.waiting ≤ s.waiting)
        (fun _ => le_rfl) (fun h h' => h'.trans h) (waiting_blockCheckChecksum fuel) bi.targets
        (s.setStatus pc .checking)).trans hmark
      simp only
      split_ifs
      · exact le_rfl
      · refine le_trans (Cache.waiting_alter_le ?_ _ _) hbelow
        simp
      · refine le_trans (Cache.waiting_alter_le ?_ _ _) hbelow
        simp [BlockInfo.invalidate]
      · exact Cache.waiting_alter_le (by simp [BlockInfo.invalidate]) _ _

theorem calledCheckChecksum_congr {check check' : Cache → ℕ → Bool × Cache} {n : ℕ}
    (hc : ∀ s pc, (check s pc).2.waiting ≤ s.waiting)
    (heq : ∀ s pc, s.waiting ≤ n → check' s pc = check s pc) :
    ∀ (ts : List ℕ) (s : Cache), s.waiting ≤ n →
    calledCheckChecksum check' s ts = calledCheckChecksum check s ts
  | [], _, _ => rfl
  | t :: ts, s, hs => by
    rw [calledCheckChecksum, calledCheckChecksum, heq s t hs]
    have ht := hc s t
    generalize check s t = r at ht
    obtain ⟨isgood, s'⟩ := r
    simp only
    split_ifs
    · exact calledCheckChecksum_congr hc heq ts s' (ht.trans hs)
    · rfl

/-- **A check comes to an end**: from as many nested calls on as blocks need a check, more make no
    difference. -/
theorem blockCheckChecksum_add (n : ℕ) : ∀ (fuel : ℕ) (s : Cache) (pc : ℕ), s.waiting ≤ fuel →
    blockCheckChecksum (fuel + n) s pc = blockCheckChecksum fuel s pc := by
  intro fuel
  induction fuel with
  | zero =>
    intro s pc hs
    cases n with
    | zero => rfl
    | succ n =>
      rw [Nat.zero_add, blockCheckChecksum, blockCheckChecksum]
      cases h : s.get pc with
      | none => rfl
      | some bi =>
        -- No block needs a check.
        have hbi : bi.status ≠ .needCheck := by
          intro hbi
          have hpos : 0 < s.waiting :=
            List.countP_pos_iff.2 ⟨_, Heap.mem_of_get h, by simpa using hbi⟩
          omega
        simp only [if_pos hbi]
  | succ fuel ih =>
    intro s pc hs
    rw [Nat.succ_add, blockCheckChecksum, blockCheckChecksum]
    cases h : s.get pc with
    | none => rfl
    | some bi =>
      by_cases hbi : bi.status = .needCheck
      · have hlt : (s.setStatus pc .checking).waiting < s.waiting :=
          Cache.waiting_alter_lt (by simp) h hbi
        have hbelow := calledCheckChecksum_congr (waiting_blockCheckChecksum fuel) ih bi.targets
          (s.setStatus pc .checking) (by omega)
        simp only [hbelow]
      · simp only [if_pos hbi]

/-- A check with as many nested calls as there are blocks. -/
def check (s : Cache) (pc : ℕ) : Bool × Cache := blockCheckChecksum s.blocks.length s pc

theorem check_eq {fuel : ℕ} (h : s.waiting ≤ fuel) (pc : ℕ) :
    check s pc = blockCheckChecksum fuel s pc := by
  obtain ⟨n, rfl⟩ := Nat.exists_eq_add_of_le h
  obtain ⟨l, hl⟩ := Nat.exists_eq_add_of_le s.waiting_le_length
  rw [check, hl, blockCheckChecksum_add n _ s pc le_rfl, blockCheckChecksum_add l _ s pc le_rfl]

/-- It is the recursion of the source: no call below it is cut off. -/
theorem check_recursive (s : Cache) (pc : ℕ) : check s pc =
    match s.get pc with
    | none => (true, s)
    | some bi =>
      if bi.status ≠ .needCheck then (true, s)
      else if bi.isGood s.mem then
        let (isgood, s) := calledCheckChecksum check (s.setStatus pc .checking) bi.targets
        if isgood then (true, s.reactivate pc) else (false, s.invalidate pc)
      else (false, s.invalidate pc) := by
  rw [check_eq (s.waiting_le_length.trans (Nat.le_succ _)), blockCheckChecksum]
  cases h : s.get pc with
  | none => rfl
  | some bi =>
    have hmark : (s.setStatus pc .checking).waiting ≤ s.waiting :=
      Cache.waiting_alter_le (by simp) s pc
    simp only [calledCheckChecksum_congr (waiting_blockCheckChecksum _)
      (fun _ pc hs => check_eq hs pc) bi.targets _
      (hmark.trans s.waiting_le_length)]

end Aranym.Jit
