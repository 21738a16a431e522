/-
  Interrupt masking of the serial controller.

  A `Monitor` runs beside the controller and keeps, for the writes of `WR1` and
  the resets of the channels, the sources that are `enabled` and those that have
  `ever` been since the last reset of their channel.  `RR3M` turns out to be the
  second set: `WR1` never takes a source out of it.
-/
import Aranym.Lib.Run
import Aranym.Scc.Model

namespace Aranym.Scc

open Lib
open BitVec hiding lt_of_getLsbD

/-! ## The monitor -/

/-- The entry points. -/
inductive Op where
  | reset
  | handleRead (offset : ℕ) (line : Line)
  | handleWrite (offset : ℕ) (value : U8)
  | irq (line : Line)
  | doInterrupt

/-- A channel, by its `set2`. -/
def ofOffset : ℕ → Option ℕ
  | 0 => some 0
  | 4 => some 16
  | _ => none

/-- The sources of a channel. -/
def channel (set2 : ℕ) : U8 := if set2 = 0 then 0x38 else 7

/-- The sources that a value of `WR1` enables. -/
def sources (set2 : ℕ) (value : U8) : U8 :=
  if set2 = 0 then
    (if value &&& 1 ≠ 0 then 8 else 0) ||| (if value &&& 2 ≠ 0 then 16 else 0) |||
      (if value &&& 0x18 ≠ 0 then 32 else 0)
  else
    (if value &&& 1 ≠ 0 then 1 else 0) ||| (if value &&& 2 ≠ 0 then 2 else 0) |||
      (if value &&& 0x18 ≠ 0 then 4 else 0)

/-- The sources whose channel a value of `WR9` resets. -/
def resets (value : U8) : U8 :=
  (if value &&& 0x40 ≠ 0 then 7 else 0) ||| (if value &&& 0x80 ≠ 0 then 0x38 else 0)

/-- What was written. -/
structure Monitor where
  scc : Scc
  /-- enabled in the last `WR1` of the channel, which was written after the channel's last reset -/
  enabled : U8
  /-- enabled in some `WR1` since the channel's last reset -/
  ever : U8
  /-- the pending sources for which the last operation has called `TriggerSCC(true)` -/
  raised : U8
  /-- the source that selected the vector, if the last operation was `doInterrupt` -/
  selected : Option ℕ

/-- What a write means for the two sets. -/
def track (s : Scc) (offset : ℕ) (value : U8) (sets : U8 × U8) : U8 × U8 :=
  match ofOffset offset, s.activeReg with
  | some set2, 1 =>
    (sets.1 &&& ~~~ channel set2 ||| sources set2 value, sets.2 ||| sources set2 value)
  | some _, 9 => (sets.1 &&& ~~~ resets value, sets.2 &&& ~~~ resets value)
  | _, _ => sets

/-- The pending sources behind a call of `TriggerSCC(true)`. -/
def blame (s : Scc) (es : List Effect) : U8 :=
  if .triggerSCC true ∈ es then s.rr3 &&& s.rr3m else 0

/-- One operation; the output is the byte of a read or the vector. -/
def Monitor.step (m : Monitor) : Op → Monitor × U8
  | .reset => (⟨m.scc.reset, 0, 0, 0, none⟩, 0)
  | .handleRead offset line =>
    let r := m.scc.handleRead offset line
    ({ m with scc := r.2, raised := 0, selected := none }, r.1)
  | .handleWrite offset value =>
    let r := m.scc.handleWrite offset value
    let sets := m.scc.track offset value (m.enabled, m.ever)
    (⟨r.1, sets.1, sets.2, blame r.1 r.2, none⟩, 0)
  | .irq line =>
    let r := m.scc.irq line
    ({ m with scc := r.1, raised := blame r.1 r.2, selected := none }, 0)
  | .doInterrupt => ({ m with raised := 0, selected := m.scc.served }, m.scc.doInterrupt)

/-- The controller as its constructor leaves it. -/
def Monitor.created (s : Scc) : Monitor := ⟨s.reset, 0, 0, 0, none⟩

/-- Every source of the set is enabled. -/
def Monitor.Enabled (m : Monitor) (set : U8) : Prop :=
  ∀ j, set.getLsbD j = true → m.enabled.getLsbD j = true

/-- Disabled sources are not pending, have not raised the interrupt and have not selected the
    vector. -/
structure Monitor.Masked (m : Monitor) : Prop where
  rr3 : m.Enabled m.scc.rr3
  raised : m.Enabled m.raised
  selected : ∀ j ∈ m.selected, m.enabled.getLsbD j = true

/-- The mask is never narrowed by `WR1`. -/
def Monitor.Tracked (m : Monitor) : Prop := m.scc.rr3m = m.ever

variable {s : Scc} {m : Monitor}

/-! ## The two interrupt registers -/

/-- An operation leaves the mask and at most removes pending sources. -/
structure Quieter (s s' : Scc) : Prop where
  rr3 : ∀ j, s'.rr3.getLsbD j = true → s.rr3.getLsbD j = true
  rr3m : s'.rr3m = s.rr3m

variable {s' : Scc}

theorem Quieter.same (h : s'.rr3 = s.rr3) (hm : s'.rr3m = s.rr3m) : Quieter s s' :=
  ⟨fun _ hj => h ▸ hj, hm⟩

theorem Quieter.and (x : U8) (h : s'.rr3 = s.rr3 &&& x) (hm : s'.rr3m = s.rr3m) : Quieter s s' :=
  ⟨fun j hj => by rw [h, getLsbD_and, Bool.and_eq_true] at hj; exact hj.1, hm⟩

theorem quieter_resetHighestIus : Quieter s s.resetHighestIus := by
  unfold resetHighestIus
  split
  · exact .same rfl rfl
  · dsimp only
    split_ifs
    · exact .and _ rfl rfl
    · exact .same rfl rfl
  · exact .and _ rfl rfl

theorem quieter_command (set2 : ℕ) (value : U8) : Quieter s (s.command set2 value) := by
  unfold command
  split_ifs
  · exact quieter_resetHighestIus
  · exact .and _ rfl rfl
  · exact .and _ rfl rfl
  · exact .and _ rfl rfl
  · exact .and _ rfl rfl
  · exact .same rfl rfl

theorem and_ff (x : U8) : x &&& 255#8 = x := and_allOnes

theorem rr3m_writeWR1 (set2 : ℕ) (value : U8) :
    (s.writeWR1 set2 value).rr3m = s.rr3m ||| sources set2 value := by
  unfold writeWR1 sources enable
  split_ifs <;> simp [BitVec.or_assoc]

theorem rr3_writeWR1 (set2 : ℕ) (value : U8) :
    (s.writeWR1 set2 value).rr3 = s.rr3 &&& (~~~ channel set2 ||| sources set2 value) := by
  unfold writeWR1 sources channel enable
  split_ifs <;> simp [BitVec.and_assoc, and_ff]

theorem rr3_writeWR9 (value : U8) : (s.writeWR9 value).rr3 = s.rr3 &&& ~~~ resets value ∧
    (s.writeWR9 value).rr3m = s.rr3m &&& ~~~ resets value := by
  unfold writeWR9 resets channelAreset channelBreset channelReset setReg
  split_ifs <;> simp [BitVec.and_assoc, and_ff]

/-- What a write does to the two registers, and to the two sets. -/
inductive Wrote (s s' : Scc) (sets sets' : U8 × U8) : Prop
  | quiet : Quieter s s' → sets' = sets → Wrote s s' sets sets'
  | wr1 (set2 : ℕ) (value : U8) :
      s'.rr3 = s.rr3 &&& (~~~ channel set2 ||| sources set2 value) →
      s'.rr3m = s.rr3m ||| sources set2 value →
      sets' = (sets.1 &&& ~~~ channel set2 ||| sources set2 value, sets.2 ||| sources set2 value) →
      Wrote s s' sets sets'
  | wr9 (value : U8) : s'.rr3 = s.rr3 &&& ~~~ resets value → s'.rr3m = s.rr3m &&& ~~~ resets value →
      sets' = (sets.1 &&& ~~~ resets value, sets.2 &&& ~~~ resets value) → Wrote s s' sets sets'

theorem wrote_control {offset set2 : ℕ} (ho : ofOffset offset = some set2) (value : U8)
    (sets : U8 × U8) : Wrote s (s.writeControl set2 value).1 sets (s.track offset value sets) := by
  unfold writeControl track
  rw [ho]
  split_ifs with h0
  · -- a register is selected, or a command given
    rw [h0]
    unfold writeWR0
    split_ifs
    · exact .quiet (.same rfl rfl) rfl
    · exact .quiet (quieter_command set2 value) rfl
  · dsimp only [writeReg]
    split
    · rename_i h1
      rw [show s.activeReg = 1 from h1]
      exact .wr1 set2 value (rr3_writeWR1 set2 value) (rr3m_writeWR1 set2 value) rfl
    · rename_i h2
      rw [show s.activeReg = 2 from h2]
      exact .quiet (.same rfl rfl) rfl
    · rename_i h5
      rw [show s.activeReg = 5 from h5]
      exact .quiet (.same rfl rfl) rfl
    · rename_i h8
      rw [show s.activeReg = 8 from h8]
      exact .quiet (.same rfl rfl) rfl
    · rename_i h9
      rw [show s.activeReg = 9 from h9]
      exact .wr9 value (rr3_writeWR9 value).1 (rr3_writeWR9 value).2 rfl
    · rename_i h13
      rw [show s.activeReg = 13 from h13]
      exact .quiet (.same rfl rfl) rfl
    · rename_i h1 h2 h5 h8 h9 h13
      refine .quiet (.same rfl rfl) ?_
      split
      · exact absurd ‹s.activeReg = 1› h1
      · exact absurd ‹s.activeReg = 9› h9
      · rfl

theorem wrote_handleWrite (offset : ℕ) (value : U8) (sets : U8 × U8) :
    Wrote s (s.handleWrite offset value).1 sets (s.track offset value sets) := by
  unfold handleWrite
  split
  · exact wrote_control rfl value sets
  · exact wrote_control rfl value sets
  · exact .quiet (.same rfl rfl) rfl
  · rename_i h0 h4 h6
    refine .quiet (.same rfl rfl) ?_
    have ho : ofOffset offset = none := by
      unfold ofOffset
      split
      · exact absurd rfl h0
      · exact absurd rfl h4
      · rfl
    rw [track, ho]

/-! ## One operation -/

theorem rr3_of_blame {es : List Effect} {j : ℕ} (h : (blame s es).getLsbD j = true) :
    s.rr3.getLsbD j = true := by
  unfold blame at h
  split_ifs at h
  · rw [getLsbD_and, Bool.and_eq_true] at h; exact h.1
  · simp at h

/-- For an operation other than `doInterrupt` only the pending sources matter. -/
theorem masked_iff_rr3 (es : List Effect) (hr : m.raised = 0 ∨ m.raised = blame m.scc es)
    (hs : m.selected = none) : m.Masked ↔ m.Enabled m.scc.rr3 := by
  refine ⟨Monitor.Masked.rr3, fun h => ⟨h, fun j hj => ?_, by simp [hs]⟩⟩
  rcases hr with hr | hr
  · rw [hr] at hj; simp at hj
  · rw [hr] at hj; exact h j (rr3_of_blame hj)

theorem Wrote.rr3 {sets sets' : U8 × U8} (hw : Wrote s s' sets sets')
    (h : ∀ j, s.rr3.getLsbD j = true → sets.1.getLsbD j = true) (j : ℕ) (hj : s'.rr3.getLsbD j) :
    sets'.1.getLsbD j = true := by
  cases hw with
  | quiet hq hs => rw [hs]; exact h j (hq.rr3 j hj)
  | wr1 set2 value h3 hm hs =>
    rw [h3] at hj; rw [hs]
    simp only [getLsbD_and, getLsbD_or, getLsbD_not, Bool.and_eq_true, Bool.or_eq_true] at hj ⊢
    exact hj.2.imp (fun hn => ⟨h j hj.1, hn⟩) id
  | wr9 value h3 hm hs =>
    rw [h3] at hj; rw [hs]
    simp only [getLsbD_and, Bool.and_eq_true] at hj ⊢
    exact ⟨h j hj.1, hj.2⟩

theorem Wrote.rr3m {sets sets' : U8 × U8} (hw : Wrote s s' sets sets')
    (h : s.rr3m = sets.2) : s'.rr3m = sets'.2 := by
  cases hw with
  | quiet hq hs => rw [hs, hq.rr3m, h]
  | wr1 set2 value h3 hm hs => rw [hs, hm, h]
  | wr9 value h3 hm hs => rw [hs, hm, h]

/-- The status is asked for at a time when it does not report a source that has been disabled
    again. -/
def Monitor.Reports (m : Monitor) (status : U16) : Prop := m.Enabled (m.ever &&& report status)

/-- No access reports a source that has been enabled since the last reset of its channel and is
    disabled now, and `RR0A` is not read with `WR9` at 0x20 while A Ext is disabled. -/
def Monitor.Silent (m : Monitor) : Op → Prop
  | .handleRead 0 _ => m.scc.activeReg = 0 ∧ m.scc.sccRegs 9 = 0x20 → m.enabled.getLsbD 3 = true
  | .handleRead 4 line => m.scc.activeReg = 0 → m.Reports line.status
  | .irq line => m.Reports (m.scc.tickStatus line.status)
  | _ => True

theorem quieter_readControl (h : s.activeReg ≠ 0) (set2 : ℕ) (line : Line) :
    Quieter s (s.readControl set2 line).2 := by
  unfold readControl
  split
  · exact absurd ‹s.activeReg = 0› h
  any_goals exact .same rfl rfl
  split_ifs <;> exact .same rfl rfl

theorem rr3_readControl_zero (h : s.activeReg = 0) (set2 : ℕ) (line : Line) :
    s.readControl set2 line = s.readRR0 set2 line := by
  simp only [readControl, h]

theorem enabled_of_quieter (hm : m.Masked) (hq : Quieter m.scc s') : m.Enabled s'.rr3 :=
  fun j hj => hm.rr3 j (hq.rr3 j hj)

theorem enabled_readRR0A (hm : m.Masked) (line : Line) :
    m.Enabled (m.scc.readRR0 0 line).2.rr3 ↔
    (m.scc.sccRegs 9 = 0x20 → m.enabled.getLsbD 3 = true) := by
  have h9 : (m.scc.setReg 0 4).sccRegs 9 = m.scc.sccRegs 9 := rfl
  unfold readRR0
  rw [if_neg (by decide)]
  dsimp only
  split_ifs with hw
  · constructor
    · intro h _
      exact h 3 (by simp)
    · intro h j hj
      rw [getLsbD_or, Bool.or_eq_true] at hj
      rcases hj with hj | hj
      · exact hm.rr3 j hj
      · have hj3 : j = 3 := by
          have hbit : ∀ j < 8, (8 : U8).getLsbD j = true → j = 3 := by decide
          exact hbit j (lt_of_getLsbD hj) hj
        rw [hj3]; exact h hw
  · exact iff_of_true hm.rr3 fun h => absurd h hw

theorem tracked_handleRead (offset : ℕ) (line : Line) :
    (s.handleRead offset line).2.rr3m = s.rr3m := by
  have hc : ∀ set2, (s.readControl set2 line).2.rr3m = s.rr3m := by
    intro set2
    by_cases h : s.activeReg = 0
    · rw [rr3_readControl_zero h]
      unfold readRR0
      split_ifs
      · rfl
      · dsimp only
        split_ifs <;> rfl
    · exact (quieter_readControl h set2 line).rr3m
  unfold handleRead
  split
  · exact hc 0
  · exact hc 16
  all_goals rfl

theorem tracked_step (hm : m.Tracked) (op : Op) : (m.step op).1.Tracked := by
  cases op with
  | reset => rfl
  | handleRead offset line => exact (tracked_handleRead offset line).trans hm
  | handleWrite offset value => exact (wrote_handleWrite offset value (m.enabled, m.ever)).rr3m hm
  | irq line => exact hm
  | doInterrupt => exact hm

/-- **What an operation does to the masking.** -/
theorem masked_step (ht : m.Tracked) (hm : m.Masked) (op : Op) :
    (m.step op).1.Masked ↔ m.Silent op := by
  cases op with
  | reset => exact iff_of_true ⟨fun _ hj => hj, fun _ hj => hj, nofun⟩ trivial
  | handleRead offset line =>
    refine (masked_iff_rr3 [] (.inl rfl) rfl).trans ?_
    show m.Enabled (m.scc.handleRead offset line).2.rr3 ↔ _
    unfold handleRead Monitor.Silent
    dsimp only
    split
    · by_cases h : m.scc.activeReg = 0
      · rw [rr3_readControl_zero h, enabled_readRR0A hm]
        simp [h]
      · exact iff_of_true (enabled_of_quieter hm (quieter_readControl h 0 line))
          fun hc => absurd hc.1 h
    · by_cases h : m.scc.activeReg = 0
      · rw [rr3_readControl_zero h]
        show m.Enabled (m.scc.rr3m &&& report line.status) ↔ _
        rw [ht]
        exact ⟨fun hr _ => hr, fun hr => hr h⟩
      · exact iff_of_true (enabled_of_quieter hm (quieter_readControl h 16 line))
          fun hc => absurd hc h
    · exact iff_of_true hm.rr3 trivial
    · exact iff_of_true hm.rr3 trivial
    · rename_i h0 h4 h2 h6
      refine iff_of_true hm.rr3 ?_
      split
      · cases ‹Op.handleRead _ _ = _›; exact absurd rfl h0
      · cases ‹Op.handleRead _ _ = _›; exact absurd rfl h4
      · trivial
      · trivial
  | handleWrite offset value =>
    refine (masked_iff_rr3 _ (.inr rfl) rfl).trans (iff_of_true ?_ trivial)
    exact (wrote_handleWrite offset value (m.enabled, m.ever)).rr3 hm.rr3
  | irq line =>
    refine (masked_iff_rr3 _ (.inr rfl) rfl).trans ?_
    show m.Enabled (m.scc.rr3m &&& report (m.scc.tickStatus line.status)) ↔ _
    rw [ht]; rfl
  | doInterrupt =>
    refine iff_of_true ⟨hm.rr3, fun j hj => by simp [Monitor.step] at hj, fun j hj => ?_⟩ trivial
    have hb := getLsbD_highest hj
    rw [getLsbD_and, Bool.and_eq_true] at hb
    exact hm.rr3 j hb.1

/-! ## Runs -/

theorem masked_created : (Monitor.created s).Masked := ⟨fun _ hj => hj, fun _ hj => hj, nofun⟩

/-- **Masking.**  In no state of a run is a disabled source pending, behind a call of
    `TriggerSCC(true)` or the one that selects the vector, exactly if every operation of the run is
    silent about the sources that were disabled by `WR1`. -/
theorem masking_iff (s : Scc) (ops : List Op) :
    (∀ n, (run Monitor.step (.created s) (ops.take n)).Masked) ↔
      Along Monitor.step Monitor.Silent (.created s) ops := by
  have hstep : ∀ (m : Monitor) (op : Op), m.Tracked ∧ m.Masked →
      ((m.step op).1.Tracked ∧ (m.step op).1.Masked ↔ m.Silent op) :=
    fun m op h => (and_iff_right (tracked_step h.1 op)).trans (masked_step h.1 h.2 op)
  have hkeep : ∀ (m : Monitor) (op : Op), m.Tracked → (m.step op).1.Tracked :=
    fun _ op h => tracked_step h op
  have htracked : ∀ n, (run Monitor.step (.created s) (ops.take n)).Tracked :=
    fun n => run_inv_all hkeep (ops.take n) (.created s) rfl
  rw [← forall_take_iff_along hstep ops (.created s) ⟨rfl, masked_created⟩]
  exact forall_congr' fun n => (and_iff_right (htracked n)).symm

/-- B Rx is enabled and disabled again, and the next tick with a character in the port raises the
    interrupt and serves it; A Ext is pending after a read of `RR0A`, with nothing ever enabled. -/
theorem disabled_sources_speak :
    let disabled : List Op :=
      [.handleWrite 4 9, .handleWrite 4 9, .handleWrite 4 1, .handleWrite 4 0x10,
      .handleWrite 4 1, .handleWrite 4 0, .irq ⟨0x400, none, 0⟩]
    let m := run Monitor.step (.created default) disabled
    (m.enabled = 0 ∧ m.scc.rr3 = 4 ∧ m.raised = 4) ∧
      (m.step .doInterrupt).1.selected = some 2 ∧ (m.step .doInterrupt).2 = 4 ∧
      (run Monitor.step (.created default) [.handleWrite 0 9, .handleWrite 0 0x20,
        .handleRead 0 ⟨0, none, 0⟩]).scc.rr3 = 8 := by
  decide +kernel

end Aranym.Scc
