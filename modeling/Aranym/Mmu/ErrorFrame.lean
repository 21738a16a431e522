/-
  What an access that faults does to other accesses.  Two states with the same
  level 1 lines, up to empty ones, give the same outcomes (`sim_access`).
-/
import Aranym.Mmu.Transparency

namespace Aranym.Mmu

open Lib Function

variable {c : Config} {m₀ : Tables} {s t : Mmu} {a : Access} {l l' : Line}

/-! ## Lines that answer alike -/

/-- Two lines that answer alike, and stay so when they are flushed. -/
def SameLine (l l' : Line) : Prop :=
  Dead l ∧ Dead l' ∨ l.tag = l'.tag ∧ l.hw = l'.hw ∧ l.phys = l'.phys ∧ l.global = l'.global

theorem SameLine.refl (l : Line) : SameLine l l := .inr ⟨rfl, rfl, rfl, rfl⟩

theorem SameLine.hits (h : SameLine l l') {addr : U32} : Hits l addr ↔ Hits l' addr := by
  rcases h with ⟨h, h'⟩ | ⟨ht, -⟩
  · exact ⟨fun hh => absurd hh (h.not_hits _), fun hh => absurd hh (h'.not_hits _)⟩
  · rw [Hits, Hits, ht]

theorem SameLine.answer (h : SameLine l l') (hh : Hits l a.addr) :
    Mmu.answer a l = Mmu.answer a l' := by
  rcases h with ⟨h, -⟩ | ⟨ht, hw, hp, -⟩
  · exact absurd hh (h.not_hits _)
  · rw [Mmu.answer, Mmu.answer, redo, redo, ht, hw, hp]

theorem SameLine.flush (h : SameLine l l') (global : Bool) :
    SameLine (l.flush global) (l'.flush global) := by
  have hdead : ∀ {l : Line}, Dead l → Dead (l.flush global) := by
    intro l h
    unfold Line.flush
    split_ifs
    · exact dead_empty rfl
    · exact h
  rcases h with ⟨h, h'⟩ | ⟨ht, hw, hp, hg⟩
  · exact .inl ⟨hdead h, hdead h'⟩
  · unfold Line.flush
    rw [hg]
    split_ifs
    · exact .inr ⟨rfl, hw, hp, rfl⟩
    · exact .inr ⟨ht, hw, hp, hg⟩

theorem sameLine_install (ht : l.tag = l'.tag) (hw : l.hw = l'.hw) (hp : l.phys = l'.phys)
    (hg : l.global = l'.global) : SameLine (install c a l).2 (install c a l').2 := by
  unfold install
  dsimp only
  rw [hp]
  split_ifs
  · exact .inr ⟨congrArg (~~~ ·) ht, rfl, rfl, hg⟩
  · exact .inr ⟨congrArg (~~~ ·) ht, rfl, rfl, hg⟩
  · exact .inr ⟨congrArg (~~~ ·) ht, hw, rfl, hg⟩
  · exact .inr ⟨ht, hw, hp, hg⟩

/-! ## Two runs -/

theorem check_pass_global {m : Tables} (h : Holds c m a.super a.addr l) (ho : OwnSpace c a l)
    (hc : check a l = .pass) (h' : Holds c m a.super a.addr l') (ho' : OwnSpace c a l')
    (hc' : check a l' = .pass) : l.global = l'.global := by
  have htt : l.tt = l'.tt := Bool.eq_iff_iff.2 (ho.1.trans ho'.1.symm)
  cases ht : l'.tt with
  | true => rw [(h'.ttr ht).2.1, (h.ttr (htt.trans ht)).2.1]
  | false =>
    cases he : c.mmuEnabled with
    | false => rw [(h'.off ht he).2.1, (h.off (htt.trans ht) he).2.1]
    | true =>
      obtain ⟨hv, -, hsome⟩ := h.walk (htt.trans ht) he
      obtain ⟨hv', -, hsome'⟩ := h'.walk ht he
      obtain ⟨d, hd, -, -, hg, -⟩ :=
        hsome (by rw [← ownValid_of_walk hv]; exact (check_eq_pass.1 hc).1)
      obtain ⟨d', hd', -, -, hg', -⟩ :=
        hsome' (by rw [← ownValid_of_walk hv']; exact (check_eq_pass.1 hc').1)
      obtain rfl : d = d' := Option.some.inj (hd.symm.trans hd')
      rw [hg, hg']

/-- Two states that answer alike. -/
structure Sim (c : Config) (m₀ : Tables) (s t : Mmu) : Prop where
  left : Inv c m₀ s
  right : Inv c m₀ t
  lines : ∀ n, SameLine (s.l1 n) (t.l1 n)

theorem sameLine_update {n : ℕ} (h : ∀ k, SameLine (s.l1 k) (t.l1 k)) (hl : SameLine l l') (k : ℕ) :
    SameLine (Function.update s.l1 n l k) (Function.update t.l1 n l' k) := by
  by_cases hk : k = n
  · subst hk; rw [update_self, update_self]; exact hl
  · rw [update_of_ne hk, update_of_ne hk]; exact h k

theorem sim_access (h : Sim c m₀ s t) (hs : Clean c s (.access a)) (ht : Clean c t (.access a)) :
    Sim c m₀ (s.access c a).1 (t.access c a).1 ∧ (s.access c a).2 = (t.access c a).2 := by
  suffices hl : (∀ n, SameLine ((s.access c a).1.l1 n) ((t.access c a).1.l1 n)) ∧
      (s.access c a).2 = (t.access c a).2 from
    ⟨⟨(inv_access h.left hs).1, (inv_access h.right ht).1, hl.1⟩, hl.2⟩
  by_cases hh : Hits (s.l1 a.slot) a.addr
  · rw [access_hit hh, access_hit ((h.lines a.slot).hits.1 hh)]
    exact ⟨h.lines, (h.lines a.slot).answer hh⟩
  · have hh' : ¬ Hits (t.l1 a.slot) a.addr := fun ht => hh ((h.lines a.slot).hits.2 ht)
    rw [access_miss hh, access_miss hh']
    obtain ⟨l, m, hf, hcase⟩ := slow_spec h.left (hs.resolve_left hh)
    obtain ⟨l', m', hf', hcase'⟩ := slow_spec h.right (ht.resolve_left hh')
    rcases hcase with ⟨htr, hd, hslow⟩ | ⟨htr, hc, hslow⟩ <;>
      rcases hcase' with ⟨htr', hd', hslow'⟩ | ⟨htr', hc', hslow'⟩
    · rw [hslow, hslow']
      exact ⟨sameLine_update h.lines (.inl ⟨dead_not hd, dead_not hd'⟩), rfl⟩
    · rw [htr] at htr'; cases htr'
    · rw [htr] at htr'; cases htr'
    · -- both install a line of the same page
      have hp : l.phys = l'.phys := add_left_cancel (Option.some.inj (htr.symm.trans htr'))
      have hl := sameLine_install (c := c) (a := a) (hf.tag.trans hf'.tag.symm)
        (hf.holds.hw.trans hf'.holds.hw.symm) hp
        (check_pass_global hf.holds hf.own hc hf'.holds hf'.own hc')
      rw [hslow, hslow']
      exact ⟨sameLine_update h.lines hl, hl.answer (install_answer hf.tag).1⟩

theorem sameLine_flushed {global : Bool} {N : Set ℕ} {u v u' v' : ℕ → Line}
    (h : ∀ n, SameLine (u n) (v n))
    (hu : Flushed global N u u') (hv : Flushed global N v v') (n : ℕ) : SameLine (u' n) (v' n) := by
  by_cases hn : n ∈ N
  · rw [(hu n).1 hn, (hv n).1 hn]; exact (h n).flush global
  · rw [(hu n).2 hn, (hv n).2 hn]; exact h n

theorem sim_step (h : Sim c m₀ s t) {op : Op} (hs : Clean c s op) (ht : Clean c t op) :
    Sim c m₀ (step c s op).1 (step c t op).1 ∧ (step c s op).2 = (step c t op).2 := by
  cases op with
  | access a =>
    obtain ⟨h', ho⟩ := sim_access h hs ht
    exact ⟨h', congrArg some ho⟩
  | flush addr super global =>
    exact ⟨⟨inv_step h.left hs, inv_step h.right ht, sameLine_flushed h.lines
      (flushed_flushL1 c s.l1 addr super global) (flushed_flushL1 c t.l1 addr super global)⟩, rfl⟩
  | flushAll global =>
    exact ⟨⟨inv_step h.left hs, inv_step h.right ht, sameLine_flushed h.lines
      (flushed_below global 2048 s.l1) (flushed_below global 2048 t.l1)⟩, rfl⟩

/-! ## The failed access -/

/-- A clean access that faults is a bus error, and leaves the level 1 lines alike. -/
theorem sim_failed (h : Inv c m₀ s) (hc : Clean c s (.access a)) (hf : translate c m₀ a = none) :
    Sim c m₀ s (s.access c a).1 ∧ (s.access c a).2 = .busError (mmuBusError a) := by
  obtain ⟨hinv, htr⟩ := inv_access h hc
  unfold Transparent at htr
  rw [hf] at htr
  refine ⟨⟨h, hinv, fun n => ?_⟩, htr⟩
  by_cases hh : Hits (s.l1 a.slot) a.addr
  · rw [access_hit hh]; exact SameLine.refl _
  · rw [access_miss hh]
    obtain ⟨l, m, -, ⟨-, hd, hslow⟩ | ⟨htr', -⟩⟩ := slow_spec h (hc.resolve_left hh)
    · rw [hslow]
      by_cases hn : n = a.slot
      · subst hn
        show SameLine _ (Function.update s.l1 _ _ _)
        rw [update_self]
        exact .inl ⟨hd, dead_not hd⟩
      · show SameLine _ (Function.update s.l1 _ _ _)
        rw [update_of_ne hn]; exact SameLine.refl _
    · rw [hf] at htr'; cases htr'

/-- **A failed access is a bus error and changes no later outcome**, in every run of clean steps
    from `mmu_flush_atc_all(true)` and every continuation that is clean with and without it. -/
theorem failed_access_isolated (c : Config) (s : Mmu) (pre post : List Op) (a : Access)
    (hpre : Along (step c) (Clean c) (s.flushAtcAll true) (pre ++ [.access a]))
    (hfault : translate c s.tables a = none)
    (hwithout : Along (step c) (Clean c) (run (step c) (s.flushAtcAll true) pre) post)
    (hwith : Along (step c) (Clean c)
      (run (step c) (s.flushAtcAll true) (pre ++ [.access a])) post) :
    ((run (step c) (s.flushAtcAll true) pre).access c a).2 = .busError (mmuBusError a) ∧
      outputs (step c) (run (step c) (s.flushAtcAll true) (pre ++ [.access a])) post =
        outputs (step c) (run (step c) (s.flushAtcAll true) pre) post := by
  obtain ⟨hrun, hlast, -⟩ := (along_append _ _ _).1 hpre
  have hinv : Inv c s.tables (run (step c) (s.flushAtcAll true) pre) :=
    run_inv (P := Inv c s.tables) (fun _ _ hi hc => inv_step hi hc) pre _ (inv_flushAtcAll c s) hrun
  obtain ⟨hsim, hout⟩ := sim_failed hinv hlast hfault
  have hstep : ∀ u v op, Sim c s.tables u v → Clean c u op → Clean c v op →
      Sim c s.tables (step c u op).1 (step c v op).1 ∧ (step c u op).2 = (step c v op).2 :=
    fun _ _ _ h hu hv => sim_step h hu hv
  refine ⟨hout, ?_⟩
  rw [run_append] at hwith ⊢
  exact (outputs_sim hstep post _ _ hsim hwithout hwith).symm

/-- A fetch that faults, and then a read and a fetch. -/
theorem failed_access_isolated_demo : outputs (step demoConfig)
        (run (step demoConfig) (demoMmu.flushAtcAll true)
          ([.access ⟨0x5004, false, true, false, .long⟩] ++
            [.access ⟨0x6000, false, false, false, .word⟩]))
        [.access ⟨0x5004, false, true, false, .long⟩,
          .access ⟨0x5000, false, false, false, .word⟩] =
      outputs (step demoConfig)
        (run (step demoConfig)
          (demoMmu.flushAtcAll true) [.access ⟨0x5004, false, true, false, .long⟩])
        [.access ⟨0x5004, false, true, false, .long⟩,
          .access ⟨0x5000, false, false, false, .word⟩] := by
  refine (failed_access_isolated demoConfig demoMmu [.access ⟨0x5004, false, true, false, .long⟩]
    [.access ⟨0x5004, false, true, false, .long⟩, .access ⟨0x5000, false, false, false, .word⟩]
    ⟨0x6000, false, false, false, .word⟩ ⟨?_, ?_, trivial⟩ (by decide +kernel) ⟨?_, ?_, trivial⟩
    ⟨?_, ?_, trivial⟩).2
  · exact .inr ⟨by decide +kernel, by decide +kernel, fun _ _ => ⟨nofun, fun w hw => absurd rfl hw⟩⟩
  · exact .inr ⟨by decide +kernel, by decide +kernel, fun _ _ => ⟨nofun, fun w hw => absurd rfl hw⟩⟩
  · exact .inl (by decide +kernel)
  · exact .inr ⟨by decide +kernel, by decide +kernel, fun h => absurd h (by decide +kernel)⟩
  · exact .inl (by decide +kernel)
  · exact .inr ⟨by decide +kernel, by decide +kernel, fun h => absurd h (by decide +kernel)⟩

/-- A write to a page that `DTT0` protects, in the slot of another page: that page is gone.  In the
    slot of a hardware register: the write goes to a register. -/
theorem failed_access_spoils_line :
    let c := { Config.plain with dtt0 := 0x0100c004 }
    let s := (⟨default, default, fun _ => 0⟩ : Mmu).flushAtcAll true
    let failing : Access := ⟨0x01000000, true, true, true, .byte⟩
    let other : Access := ⟨0x00100000, true, true, true, .byte⟩
    let register : Access := ⟨0x00f00000, true, true, true, .byte⟩
    translate c (fun _ => 0) failing = none ∧
      ((s.access c other).1.access c other).2 = .ram 0x00100000 ∧
      (((s.access c other).1.access c failing).1.access c other).2 = .busError (mmuBusError other) ∧
      ((s.access c register).1.access c failing).2 = .hw 0x01000000 := by
  decide +kernel

end Aranym.Mmu
