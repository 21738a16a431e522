/-
  The ticks of Timer C.

  `IRQ(5, count)` counts ticks in `timerCounter`, and an acknowledge of Timer C takes one off.
  The pending bit is cleared with the last one, but also by writes to `IERB` and `IPRB`, which
  leave the counter alone.  A later request then delivers the old ticks, too.  The counter is an
  `int`, which more than `2 ^ 31 - 1` ticks overflow.
-/
import Aranym.Mfp.Invariants

namespace Aranym.Mfp

open Lib

/-! ## The ledger -/

/-- The vector of Timer C. -/
def IsTimerC (vector : ℕ) : Prop := vector % 16 = 5
deriving Decidable

/-- The ticks that an operation counts. -/
def counted (m : Mfp) : Op → ℤ
  | .irq level count => if level = 5 ∧ m.irqEnable.getLsbD 5 = true then count else 0
  | _ => 0

/-- Timer C is pending, and bit 5 is clear in what is written to `IERB` or `IPRB`. -/
def Cancels (m : Mfp) : Op → Prop
  | .write addr value => (addr = 0xfffa09 ∨ addr = 0xfffa0d) ∧ value.getLsbD 5 = false ∧
      m.irqPending.getLsbD 5 = true
  | _ => False

/-- The ticks are more than the counter can hold. -/
def Overflows (m : Mfp) (op : Op) : Prop := 2 ^ 31 ≤ m.timerCounter + m.counted op
deriving Decidable

instance (m : Mfp) : DecidablePred m.Cancels
  | .write _ _ => inferInstanceAs (Decidable (_ ∧ _))
  | .read _ _ | .irq _ _ | .setGPIPbit _ _ | .doInterrupt | .serve =>
      inferInstanceAs (Decidable False)

/-- The ticks so far. -/
structure Ledger where
  counted : ℤ
  delivered : ℤ
  cancelled : ℤ
  deriving DecidableEq

namespace Ledger

/-- The ticks that are still to be delivered. -/
def due (l : Ledger) : ℤ := l.counted - l.delivered - l.cancelled

/-- An operation cancels all the ticks that are due, or none. -/
def note (l : Ledger) (m : Mfp) (op : Op) : Ledger where
  counted := l.counted + m.counted op
  delivered := l.delivered + if IsTimerC (m.step op).2 then 1 else 0
  cancelled := l.cancelled + if m.Cancels op then l.due else 0

theorem due_note (l : Ledger) (m : Mfp) {op : Op} (h : ¬ m.Cancels op) :
    (l.note m op).due = l.due + m.counted op - if IsTimerC (m.step op).2 then 1 else 0 := by
  simp only [note, due, if_neg h]
  omega

end Ledger

/-- The chip and its ledger. -/
def ledgerStep (s : Mfp × Ledger) (op : Op) : (Mfp × Ledger) × ℕ :=
  (((s.1.step op).1, s.2.note s.1 op), (s.1.step op).2)

/-- A reset, with nothing in the ledger. -/
def ledgerStart (m : Mfp) : Mfp × Ledger := (m.reset.triggerMfp false, ⟨0, 0, 0⟩)

/-- Timer C is pending as long as ticks are counted, and these are the ones that are due. -/
structure Accounted (s : Mfp × Ledger) : Prop where
  pending : s.1.irqPending.getLsbD 5 = true ↔ 0 < s.1.timerCounter
  enabled : s.1.irqPending.getLsbD 5 = true → s.1.irqEnable.getLsbD 5 = true
  counter : s.1.timerCounter = s.2.due
  range : 0 ≤ s.2.due ∧ s.2.due < 2 ^ 31

/-! ## The variables of Timer C -/

/-- The pending and the enable bit of Timer C, and its counter. -/
def timerC (m : Mfp) : Bool × Bool × ℤ :=
  (m.irqPending.getLsbD 5, m.irqEnable.getLsbD 5, m.timerCounter)

theorem and_timerC_eq_zero (x : U16) : x &&& 1#16 <<< 5 = 0 ↔ x.getLsbD 5 = false := and_bit_eq_zero

section

variable (m : Mfp)

theorem timerC_irq_five (count : ℤ) : (m.irq 5 count).timerC =
      if m.irqEnable.getLsbD 5 = true then (true, true, int (m.timerCounter + count))
        else m.timerC := by
  unfold irq
  simp only [if_true, and_timerC_eq_zero, ne_eq, Bool.not_eq_false]
  by_cases hen : m.irqEnable.getLsbD 5 = true
  · rw [if_neg (by simp [hen]), if_pos hen]
    split_ifs with hp <;> simp [timerC, triggerMfp, hp, hen]
  · rw [if_pos (by simpa using hen), if_neg hen]
    rfl

theorem timerC_irq_other {level : ℕ} (h : level ≠ 5) (count : ℤ) :
    (m.irq level count).timerC = m.timerC := by
  have hbit : ∀ x : U16, (x ||| 1#16 <<< level).getLsbD 5 = x.getLsbD 5 := by
    intro x
    rw [BitVec.getLsbD_or, getLsbD_bit]
    simp [h.symm]
  unfold irq
  simp only [h, if_false]
  split_ifs <;> simp only [timerC, triggerMfp, hbit]

theorem mapGpipToIer_ne_five (j : ℕ) : mapGpipToIer j ≠ 5 := by
  unfold mapGpipToIer
  split <;> first | decide | assumption

theorem timerC_irqLines (p : ℕ → Bool) (m : Mfp) : (m.irqLines p).timerC = m.timerC := by
  unfold irqLines
  generalize List.range 8 = l
  induction l generalizing m with
  | nil => rfl
  | cons j l ih =>
    rw [List.foldl_cons, ih]
    split_ifs
    · exact timerC_irq_other m (mapGpipToIer_ne_five j) 1
    · rfl

theorem timerC_handleWrite_ierb (value : U8) : (m.handleWrite 0xfffa09 value).timerC =
      (m.irqPending.getLsbD 5 && value.getLsbD 5, value.getLsbD 5, m.timerCounter) := by
  have hw : m.handleWrite 0xfffa09 value = m.writeEnable (withLow m.irqEnable value) := rfl
  rw [hw]
  simp [writeEnable, timerC, withLow]

theorem timerC_handleWrite_iprb (value : U8) : (m.handleWrite 0xfffa0d value).timerC =
      (m.irqPending.getLsbD 5 && value.getLsbD 5, m.irqEnable.getLsbD 5, m.timerCounter) := by
  have hw : m.handleWrite 0xfffa0d value = m.writePending (withLow 0xff00 value) := rfl
  rw [hw, writePending]
  split_ifs <;> simp [timerC, triggerMfp, withLow]

/-- The registers `IERA` and `IPRA` keep the pending bit of an enabled Timer C. -/
theorem timerC_handleWrite_other (h : m.irqPending.getLsbD 5 = true → m.irqEnable.getLsbD 5 = true)
    {addr : U32} (h9 : addr ≠ 0xfffa09) (hd : addr ≠ 0xfffa0d) (value : U8) :
    (m.handleWrite addr value).timerC = m.timerC := by
  have hhigh : ∀ x : U16, (withHigh x value).getLsbD 5 = x.getLsbD 5 := by
    intro x
    simp [withHigh]
  unfold handleWrite
  by_cases ha : addr - hwOffset > hwSize
  · rw [if_pos ha]
  rw [if_neg ha]
  split
  case h_2 => exact timerC_irqLines _ _
  case h_4 =>
    simp only [timerC, writeEnable, BitVec.getLsbD_and, hhigh, Prod.mk.injEq, and_true,
      Bool.and_eq_left_iff_imp]
    exact h
  case h_5 heq =>
    have : addr = 0xfffa09 := by
      unfold hwOffset at heq
      bv_omega
    exact absurd this h9
  case h_6 =>
    unfold writePending
    dsimp only
    split_ifs <;> simp only [timerC, triggerMfp, BitVec.getLsbD_and, hhigh] <;> simp
  case h_7 heq =>
    have : addr = 0xfffa0d := by
      unfold hwOffset at heq
      bv_omega
    exact absurd this hd
  case h_8 | h_9 =>
    unfold writeInservice
    dsimp only
    split_ifs <;> rfl
  case h_12 =>
    unfold writeVr
    dsimp only
    split_ifs <;> rfl
  all_goals rfl

theorem timerC_handleRead (busy : U8) (addr : U32) :
    (m.handleRead busy addr).2.timerC = m.timerC := by
  unfold handleRead
  by_cases ha : addr - hwOffset > hwSize
  · rw [if_pos ha]
  rw [if_neg ha]
  split <;> rfl

theorem timerC_setGPIPbit (mask value : U8) : (m.setGPIPbit mask value).timerC = m.timerC := by
  unfold setGPIPbit
  rw [timerC_irqLines]
  rfl

theorem timerC_enterService (j : ℕ) : (m.enterService j).timerC = m.timerC := by
  unfold enterService
  split_ifs <;> rfl

theorem timerC_dropRequest_five :
    (m.dropRequest 5).timerC = (m.irqPending.getLsbD 5 && decide (0 < int (m.timerCounter - 1)),
      m.irqEnable.getLsbD 5, int (m.timerCounter - 1)) := by
  unfold dropRequest
  simp only [if_true, ne_eq, not_true_eq_false, false_or]
  split_ifs with h
  · simp [timerC, triggerMfp, h]
  · simp [timerC, not_le.1 h]

theorem timerC_dropRequest_other {j : ℕ} (h : j ≠ 5) : (m.dropRequest j).timerC = m.timerC := by
  have hbit : (m.irqPending &&& ~~~(1#16 <<< j)).getLsbD 5 = m.irqPending.getLsbD 5 := by
    rw [BitVec.getLsbD_and, BitVec.getLsbD_not, getLsbD_bit]
    simp [h.symm]
  unfold dropRequest
  simp only [h, if_false, ne_eq, not_false_eq_true, true_or, if_true, timerC, triggerMfp, hbit]

theorem isTimerC_vector (vr : ℕ) {j : ℕ} (hj : j < 16) :
    IsTimerC ((vr &&& vrVector) + j) ↔ j = 5 := by
  have hv : (vr &&& vrVector) % 2 ^ 4 = 0 := by
    rw [Nat.and_mod_two_pow]
    exact Nat.and_zero _
  unfold IsTimerC
  omega

/-- An acknowledge with vector `v` delivers one tick of a pending Timer C, or has nothing to do with
    it. -/
def Acknowledged (v : ℕ) (m' : Mfp) : Prop :=
  (IsTimerC v ∧ m.irqPending.getLsbD 5 = true ∧ m'.timerC =
    (decide (0 < int (m.timerCounter - 1)), m.irqEnable.getLsbD 5, int (m.timerCounter - 1))) ∨
  (¬ IsTimerC v ∧ m'.timerC = m.timerC)

theorem acknowledged_doInterrupt : m.Acknowledged m.doInterrupt.1 m.doInterrupt.2 := by
  have hzero : ¬ IsTimerC 0 := by decide
  unfold doInterrupt
  cases hh : highest (m.irqPending &&& m.irqMask) 16 with
  | none => exact .inr ⟨hzero, rfl⟩
  | some j =>
    have hp := (highest_isTop hh).1
    have hj : j < 16 := lt_of_getLsbD hp
    rw [BitVec.getLsbD_and, Bool.and_eq_true] at hp
    dsimp only
    split_ifs with hs
    · exact .inr ⟨hzero, rfl⟩
    · by_cases h5 : j = 5
      · subst h5
        exact .inl ⟨(isTimerC_vector _ hj).2 rfl, hp.1, by
          rw [timerC_enterService, timerC_dropRequest_five, hp.1, Bool.true_and]⟩
      · exact .inr ⟨mt (isTimerC_vector _ hj).1 h5, by
          rw [timerC_enterService, timerC_dropRequest_other m h5]⟩

theorem acknowledged_serveMfp : m.Acknowledged m.serveMfp.1 m.serveMfp.2 := by
  have hzero : ¬ IsTimerC 0 := by decide
  unfold serveMfp
  dsimp only
  split_ifs with hf hv
  · exact acknowledged_doInterrupt m
  · -- the vector 0 is that of request 0
    rcases acknowledged_doInterrupt m with ⟨ht, -⟩ | ⟨-, he⟩
    · rw [not_not.1 hv] at ht
      exact absurd ht hzero
    · exact .inr ⟨hzero, he⟩
  · exact .inr ⟨hzero, rfl⟩

end

variable {m m' : Mfp} {l l' : Ledger}

/-! ## One operation -/

/-- An operation that touches neither the variables nor the ledger. -/
theorem accounted_quiet (hm : m'.timerC = m.timerC) (hl : l'.due = l.due)
    (h : Accounted (m, l)) : Accounted (m', l') := by
  simp only [timerC, Prod.mk.injEq] at hm
  obtain ⟨hp, he, hc⟩ := hm
  constructor
  · rw [hp, hc]; exact h.pending
  · rw [hp, he]; exact h.enabled
  · rw [hc, hl]; exact h.counter
  · rw [hl]; exact h.range

theorem accounted_acknowledge {v : ℕ} (hv : m.Acknowledged v m')
    (hl : l'.due = l.due - if IsTimerC v then 1 else 0) (h : Accounted (m, l)) :
    Accounted (m', l') := by
  rcases hv with ⟨ht, hp, hm⟩ | ⟨ht, hm⟩
  · have hpos := h.pending.1 hp
    have hc := h.counter
    have hr := h.range
    dsimp only at hp hpos hc hr
    rw [if_pos ht] at hl
    rw [int_of_mem (by omega)] at hm
    simp only [timerC, Prod.mk.injEq] at hm
    obtain ⟨hp', he', hc'⟩ := hm
    refine ⟨?_, fun _ => ?_, ?_, ?_⟩ <;> dsimp only
    · rw [hp', hc', decide_eq_true_iff]
    · rw [he']; exact h.enabled hp
    · rw [hc', hl, hc]
    · omega
  · rw [if_neg ht, sub_zero] at hl
    exact accounted_quiet hm hl h

/-- The pending bit is set with the counter, so a sum that turns negative shows. -/
theorem accounted_irq (level : ℕ) {count : ℤ} (hcount : level = 5 → 1 ≤ count ∧ count < 2 ^ 31)
    (h : Accounted (m, l)) : Accounted (m.irq level count, l.note m (.irq level count)) ↔
      ¬ m.Overflows (.irq level count) := by
  have hdue : (l.note m (.irq level count)).due = l.due + m.counted (.irq level count) := by
    rw [l.due_note m id]
    exact sub_zero _
  have hc := h.counter
  have hr := h.range
  dsimp only at hc hr
  by_cases hon : level = 5 ∧ m.irqEnable.getLsbD 5 = true
  · obtain ⟨rfl, hen⟩ := hon
    have hm := timerC_irq_five m count
    have hcounted : m.counted (.irq 5 count) = count := by simp [counted, hen]
    rw [if_pos hen] at hm
    simp only [timerC, Prod.mk.injEq] at hm
    obtain ⟨hp', he', hc'⟩ := hm
    unfold Overflows
    constructor
    · intro h'
      have hpos := h'.pending.1 hp'
      by_contra hover
      rw [hc', int, wrapAt_of_ge (by omega) (by omega)] at hpos
      omega
    · intro hlt
      rw [int_of_mem (by omega)] at hc'
      refine ⟨?_, fun _ => he', ?_, ?_⟩ <;> dsimp only
      · rw [hp', hc']
        exact iff_of_true rfl (by omega)
      · rw [hc', hdue, hcounted, hc]
      · omega
  · have hcounted : m.counted (.irq level count) = 0 := if_neg hon
    have hm : (m.irq level count).timerC = m.timerC := by
      by_cases h5 : level = 5
      · subst h5
        rw [timerC_irq_five, if_neg fun hen => hon ⟨rfl, hen⟩]
      · exact timerC_irq_other m h5 count
    refine iff_of_true (accounted_quiet hm (by rw [hdue, hcounted, add_zero]) h) ?_
    unfold Overflows
    omega

/-- The counter stays, so a cleared bit shows. -/
theorem accounted_cleared {v e : Bool}
    (hm : m'.timerC = (m.irqPending.getLsbD 5 && v, e, m.timerCounter))
    (he : m.irqPending.getLsbD 5 = true → v = true → e = true)
    (hl : ¬ (v = false ∧ m.irqPending.getLsbD 5 = true) → l'.due = l.due) (h : Accounted (m, l)) :
    Accounted (m', l') ↔ ¬ (v = false ∧ m.irqPending.getLsbD 5 = true) := by
  simp only [timerC, Prod.mk.injEq] at hm
  obtain ⟨hp', he', hc'⟩ := hm
  constructor
  · rintro h' ⟨hv, hp⟩
    have hpos' : 0 < m'.timerCounter := hc' ▸ h.pending.1 hp
    have hset := h'.pending.2 hpos'
    rw [hp', hv, Bool.and_false] at hset
    exact Bool.false_ne_true hset
  · intro hno
    have hsame : (m.irqPending.getLsbD 5 && v) = m.irqPending.getLsbD 5 := by
      cases hp : m.irqPending.getLsbD 5
      · rfl
      · exact Bool.of_not_eq_false fun hv => hno ⟨hv, hp⟩
    constructor
    · rw [hp', hsame, hc']; exact h.pending
    · intro hset
      rw [hp', Bool.and_eq_true] at hset
      exact he'.trans (he hset.1 hset.2)
    · rw [hc', hl hno]; exact h.counter
    · rw [hl hno]; exact h.range

theorem accounted_write (addr : U32) (value : U8) (h : Accounted (m, l)) :
    Accounted (m.handleWrite addr value, l.note m (.write addr value)) ↔
    ¬ m.Cancels (.write addr value) := by
  have hl : ¬ m.Cancels (.write addr value) → (l.note m (.write addr value)).due = l.due := by
    intro hno
    rw [l.due_note m hno]
    simp [counted, step, IsTimerC]
  by_cases h9 : addr = 0xfffa09
  · subst h9
    simp only [Cancels, true_or, true_and] at hl ⊢
    exact accounted_cleared (timerC_handleWrite_ierb m value) (fun _ hv => hv) hl h
  · by_cases hd : addr = 0xfffa0d
    · subst hd
      simp only [Cancels, or_true, true_and] at hl ⊢
      exact accounted_cleared (timerC_handleWrite_iprb m value) (fun hp _ => h.enabled hp) hl h
    · have hno : ¬ m.Cancels (.write addr value) := fun hc => hc.1.elim h9 hd
      exact iff_of_true
        (accounted_quiet (timerC_handleWrite_other m h.enabled h9 hd value) (hl hno) h) hno

/-- Requests of Timer C bring at least one tick, in an `int`. -/
def Ticks : Op → Prop
  | .irq level count => level = 5 → 1 ≤ count ∧ count < 2 ^ 31
  | _ => True

instance : DecidablePred Ticks
  | .irq level count => inferInstanceAs (Decidable (level = 5 → 1 ≤ count ∧ count < 2 ^ 31))
  | .write _ _ | .read _ _ | .setGPIPbit _ _ | .doInterrupt | .serve =>
      inferInstanceAs (Decidable True)

/-- **One operation.**  The chip goes on agreeing with its ledger, unless ticks are cancelled or
    overflow the counter. -/
theorem accounted_step (s : Mfp × Ledger) (op : Op) (hop : Ticks op) (h : Accounted s) :
    Accounted (ledgerStep s op).1 ↔ ¬ s.1.Cancels op ∧ ¬ s.1.Overflows op := by
  obtain ⟨m, l⟩ := s
  -- only a request counts ticks
  have hfits : m.counted op = 0 → ¬ m.Overflows op := by
    intro hcounted hover
    have hc := h.counter
    have hr := h.range
    rw [Overflows, hcounted] at hover
    dsimp only at hc hr
    omega
  cases op with
  | write addr value => exact (accounted_write addr value h).trans (and_iff_left (hfits rfl)).symm
  | read busy addr =>
    refine iff_of_true (accounted_quiet (timerC_handleRead m busy addr) ?_ h) ⟨id, hfits rfl⟩
    rw [l.due_note m id]
    simp [counted, step, IsTimerC]
  | irq level count => exact (accounted_irq level hop h).trans (and_iff_right id).symm
  | setGPIPbit mask value =>
    refine iff_of_true (accounted_quiet (timerC_setGPIPbit m mask value) ?_ h) ⟨id, hfits rfl⟩
    rw [l.due_note m id]
    simp [counted, step, IsTimerC]
  | doInterrupt =>
    refine iff_of_true (accounted_acknowledge (acknowledged_doInterrupt m) ?_ h) ⟨id, hfits rfl⟩
    have hcounted : m.counted .doInterrupt = 0 := rfl
    rw [l.due_note m id, hcounted, add_zero]
    rfl
  | serve =>
    refine iff_of_true (accounted_acknowledge (acknowledged_serveMfp m) ?_ h) ⟨id, hfits rfl⟩
    have hcounted : m.counted .serve = 0 := rfl
    rw [l.due_note m id, hcounted, add_zero]
    rfl

/-- **The ticks of Timer C.**  Over every sequence of operations from a reset, in which a request of
    Timer C brings at least one tick: Timer C is pending exactly as long as its counter is positive,
    and the counter holds the counted ticks that were neither delivered nor cancelled, in all the
    states passed, exactly if no write to `IERB` or `IPRB` cancels a pending Timer C and the counter
    never overflows. -/
theorem ticks_accounted_iff (m : Mfp) (ops : List Op) (hops : ∀ op ∈ ops, Ticks op) :
    (∀ n, Accounted (run ledgerStep (ledgerStart m) (ops.take n))) ↔
      Along ledgerStep (fun s op => ¬ s.1.Cancels op ∧ ¬ s.1.Overflows op) (ledgerStart m) ops := by
  have hstart : Accounted (ledgerStart m) := by
    constructor <;> simp [ledgerStart, reset, triggerMfp, Ledger.due]
  exact forall_take_iff_along_of_mem accounted_step ops (ledgerStart m) hops hstart

/-- Enable and unmask Timer C. -/
def timerCOn : List Op := [.write 0xfffa09 0x20, .write 0xfffa15 0x20]

/-- Three ticks, one of them delivered. -/
theorem ticks_accounted_delivered :
    Accounted (run ledgerStep (ledgerStart default) (timerCOn ++ [.irq 5 3, .doInterrupt])) := by
  have h := (ticks_accounted_iff default (timerCOn ++ [.irq 5 3, .doInterrupt]) (by decide)).2
    (by decide +kernel) 4
  rwa [List.take_of_length_le (by decide)] at h

/-- Three ticks are cancelled through `IPRB`, and four vectors delivered after one more tick. -/
theorem ticks_delivered_after_cancel : (run ledgerStep (ledgerStart default)
        (timerCOn ++ [.irq 5 3, .write 0xfffa0d 0xdf, .irq 5 1] ++
          List.replicate 4 .doInterrupt)).2 =
      ⟨4, 4, 3⟩ ∧
    ¬ Accounted (run ledgerStep (ledgerStart default)
      (timerCOn ++ [.irq 5 3, .write 0xfffa0d 0xdf])) := by
  refine ⟨by decide +kernel, fun h => ?_⟩
  have hpos : ¬ 0 <
    (run ledgerStep (ledgerStart default)
    (timerCOn ++ [.irq 5 3, .write 0xfffa0d 0xdf])).1.timerCounter :=
    fun hc => absurd (h.pending.2 hc) (by decide +kernel)
  revert hpos
  decide +kernel

end Aranym.Mfp
