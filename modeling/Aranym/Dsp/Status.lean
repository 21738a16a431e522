/-
  The status flags of the host port.

  `TRDY` of the CPU's side tells it that nothing is on its way to the DSP: `TXDE`
  is set and `HRDF` is clear.  The transfers bring it up to date with
  `dsp_core_hostport_update_trdy`; `dsp_hi_interrupts` clears `HRDF` without it.
-/
import Aranym.Dsp.Link

namespace Aranym.DspCore

open Lib

variable {c c' : DspCore}

/-- Bit 2 of `ISR`: nothing is on its way to the DSP. -/
def trdy (c : DspCore) : Bool := c.isr.getLsbD 2

/-- `TRDY` is what the other two flags say. -/
def Coherent (c : DspCore) : Prop := c.trdy = (c.txde && !c.hrdf)
deriving Decidable

/-- The three flags. -/
def status (c : DspCore) : Bool × Bool × Bool := (c.trdy, c.txde, c.hrdf)

theorem coherent_congr (h : c'.status = c.status) : c'.Coherent ↔ c.Coherent := by
  simp only [status, Prod.mk.injEq] at h
  rw [Coherent, Coherent, h.1, h.2.1, h.2.2]

theorem coherent_iff {t x r : Bool} (h : c.status = (t, x, r)) : c.Coherent ↔ t = (x && !r) := by
  simp only [status, Prod.mk.injEq] at h
  rw [Coherent, h.1, h.2.1, h.2.2]

/-! ## Single registers -/

theorem status_setISR (v : U8) :
    (c.setHostport cpuHostISR v).status = (v.getLsbD 2, v.getLsbD 1, c.hrdf) := rfl

theorem status_setHSR (v : U32) : (c.setPeriph .X hostHSR v).status =
    (c.trdy, c.txde, v.getLsbD 0) := rfl

theorem status_setISR_same {v : U8} (h2 : v.getLsbD 2 = c.isr.getLsbD 2)
    (h1 : v.getLsbD 1 = c.isr.getLsbD 1) : (c.setHostport cpuHostISR v).status = c.status := by
  rw [status_setISR, h2, h1]
  rfl

theorem status_setHSR_same {v : U32} (h0 : v.getLsbD 0 = c.hsr.getLsbD 0) :
    (c.setPeriph .X hostHSR v).status = c.status := by
  rw [status_setHSR, h0]
  rfl

theorem status_setX {i : ℕ} (hi : i ≠ hostHSR) (v : U32) :
    (c.setPeriph .X i v).status = c.status := by
  simp [status, trdy, txde, hrdf, isr, hsr, setPeriph, hi.symm]

theorem status_setHostport {i : ℕ} (hi : i ≠ cpuHostISR) (v : U8) :
    (c.setHostport i v).status = c.status := by
  simp [status, trdy, txde, hrdf, isr, hsr, setHostport, hi.symm]

/-! ## Transfers -/

theorem coherent_hostportUpdateTrdy (c : DspCore) : c.hostportUpdateTrdy.Coherent := by
  have hv := view_hostportUpdateTrdy (c := c)
  have htx : c.hostportUpdateTrdy.txde = c.txde := congrArg Port.txde hv
  have hhr : c.hostportUpdateTrdy.hrdf = c.hrdf := congrArg Port.hrdf hv
  rw [Coherent, htx, hhr]
  simp [hostportUpdateTrdy, trdy, txde, hrdf, isr, hsr, setHostport]

section

variable (h : c.Coherent)
include h

theorem coherent_dsp2host : c.dsp2host.Coherent := by
  unfold dsp2host
  split_ifs
  · exact h
  · exact h
  · -- `RXDF` and `HTDE` are other flags
    refine (coherent_congr ?_).2 h
    rw [status_setISR_same (by simp) (or_one _).2, status_setHSR_same (or_two _).1]
    rw [status_setHostport (by decide), status_setHostport (by decide),
      status_setHostport (by decide)]

theorem coherent_host2dsp : c.host2dsp.Coherent := by
  unfold host2dsp
  split_ifs
  · exact h
  · exact h
  · exact coherent_hostportUpdateTrdy _

theorem coherent_hostportCpuread : c.hostportCpuread.Coherent := by
  refine coherent_dsp2host ((coherent_congr ?_).2 h)
  exact status_setISR_same (by simp) (and_fe _).2

theorem coherent_hostportDspwrite : c.hostportDspwrite.Coherent := by
  refine coherent_dsp2host ((coherent_congr ?_).2 h)
  exact status_setHSR_same (and_fd _).1

omit h in
theorem coherent_hostportCpuwrite (c : DspCore) : c.hostportCpuwrite.Coherent :=
  coherent_host2dsp (coherent_hostportUpdateTrdy _)

omit h in
theorem coherent_hostportDspread (c : DspCore) : c.hostportDspread.Coherent :=
  coherent_host2dsp (coherent_hostportUpdateTrdy _)

/-! ## Accesses -/

theorem coherent_readHost (addr : ℕ) : (c.readHost addr).2.Coherent := by
  unfold readHost
  split_ifs
  · exact coherent_hostportCpuread h
  · exact h

theorem coherent_bootstrapWord : c.bootstrapWord.Coherent := by
  unfold bootstrapWord
  dsimp only
  split_ifs
  all_goals exact h

theorem coherent_writeHost (addr : ℕ) (value : U8) : (c.writeHost addr value).Coherent := by
  unfold writeHost
  split
  · refine (coherent_congr ?_).2 h
    rw [status_setHSR_same (by simp), status_setHSR_same (by simp), status_setHostport (by decide)]
  · dsimp only
    split_ifs
    · refine (coherent_congr ?_).2 h
      rw [status_setHSR_same (by simp), status_setHostport (by decide)]
    · exact (coherent_congr (status_setHostport (by decide) _)).2 h
  · exact (coherent_congr (status_setHostport (by decide) _)).2 h
  · exact (coherent_congr (status_setHostport (by decide) _)).2 h
  · exact (coherent_congr (status_setHostport (by decide) _)).2 h
  · dsimp only
    split_ifs
    · exact coherent_hostportCpuwrite _
    · exact coherent_bootstrapWord ((coherent_congr (status_setHostport (by decide) _)).2 h)
  · exact h

theorem coherent_readMemory (space : DspSpace) (address : U16) :
    (c.readMemory space address).2.Coherent := by
  unfold readMemory
  split_ifs
  all_goals first | exact h | exact coherent_hostportDspread c

theorem coherent_writePeriphX (i : ℕ) (value : U32) : (c.writePeriphX i value).Coherent := by
  unfold writePeriphX
  split
  · exact coherent_hostportDspwrite ((coherent_congr (status_setX (by decide) _)).2 h)
  · refine (coherent_congr ?_).2 h
    rw [status_setISR_same (by simp) (by simp), status_setISR_same (by simp) (by simp),
      status_setX (by decide)]
  · exact h
  · exact (coherent_congr (status_setX ‹_› _)).2 h

theorem coherent_writeMemoryRaw (space : DspSpace) (address : U16) (value : U32) :
    (c.writeMemoryRaw space address value).Coherent := by
  unfold writeMemoryRaw
  by_cases ha : address < 0x100
  · rw [if_pos ha]
    exact h
  · rw [if_neg ha]
    cases space with
    | X =>
      dsimp only
      split_ifs
      · exact h
      · exact coherent_writePeriphX h _ _
      · exact h
    | Y | P => dsimp only; split_ifs <;> exact h

/-- The host receive interrupt clears `HRDF` and leaves `TRDY`, which is clear then. -/
theorem coherent_hiInterrupts_iff :
    c.hiInterrupts.2.Coherent ↔ ¬ ((¬ c.hostCommand ∧ c.hostReceive) ∧ c.txde = true) := by
  unfold hiInterrupts
  split_ifs with hc hr ht
  · refine iff_of_true ?_ fun hn => hn.1.1 hc
    refine (coherent_congr
      (Eq.trans ?_ (status_setHSR_same (c := c) (v := c.hsr &&& 0xfb) (by simp)))).2 h
    exact status_setHostport (by decide) _
  · have hhr : c.hrdf = true := (bit0_iff c.hsr).1 hr.2
    have htr : c.trdy = false := by rw [h, hhr, Bool.not_true, Bool.and_false]
    have hst : (c.setPeriph .X hostHSR (c.hsr &&& 0xfe)).status = (false, c.txde, false) := by
      rw [status_setHSR, (and_fe c.hsr).1, htr]
    refine (coherent_iff hst).trans ?_
    rw [and_iff_right ⟨hc, hr⟩]
    cases c.txde <;> decide
  · refine iff_of_true ?_ fun hn => hr hn.1.2
    exact (coherent_congr (status_setHSR_same (c := c) (v := c.hsr &&& 0xfd) (and_fd _).1)).2 h
  · exact iff_of_true h fun hn => hr hn.1.2

/-! ## Runs -/

theorem coherent_step_iff (e : Ev) :
    (c.step e).1.Coherent ↔ ¬ (c.TakesHostReceive e ∧ c.txde = true) := by
  have hother : e ≠ .hiInterrupts → ¬ (c.TakesHostReceive e ∧ c.txde = true) :=
    fun he ht => he ht.1.1
  cases e with
  | readHost addr => exact iff_of_true (coherent_readHost h addr) (hother (by simp))
  | writeHost addr value => exact iff_of_true (coherent_writeHost h addr value) (hother (by simp))
  | readMemory space address =>
    exact iff_of_true (coherent_readMemory h space address) (hother (by simp))
  | writeMemory space address value =>
    exact iff_of_true (coherent_writeMemoryRaw h space address value) (hother (by simp))
  | hiInterrupts =>
    refine (coherent_hiInterrupts_iff h).trans ?_
    rw [TakesHostReceive, eq_self_iff_true, true_and]

end

theorem coherent_reset (c : DspCore) : c.reset.Coherent := by
  simp [Coherent, trdy, txde, hrdf, isr, hsr, reset, cpuHostISR, cpuHostCVR]

/-- It is the one to `p:$0022`, and it is taken only while `HTDE` is clear. -/
theorem takesHostTransmit_spec {e : Ev} (h : c.TakesHostTransmit e) :
    (c.step e).1.interruptInstrFetch = 0x22 ∧ c.htde = false := by
  obtain ⟨rfl, hc, hr, ht⟩ := h
  refine ⟨?_, Bool.not_eq_true _ ▸ (bit1_iff _).not.1 (not_not.2 ht.2)⟩
  show c.hiInterrupts.2.interruptInstrFetch = 0x22
  unfold hiInterrupts
  rw [if_neg hc, if_neg hr, if_pos ht]

/-- The host transmit interrupt is taken only while the transmit register is empty. -/
def TransmitWhenEmpty (c : DspCore) (e : Ev) : Prop := c.TakesHostTransmit e → c.htde = true
deriving Decidable

theorem transmitWhenEmpty_iff (c : DspCore) (e : Ev) :
    c.TransmitWhenEmpty e ↔ ¬ c.TakesHostTransmit e := by
  constructor
  · intro h ht
    exact Bool.false_ne_true ((takesHostTransmit_spec ht).2.symm.trans (h ht))
  · exact fun h ht => absurd ht h

/-- **Host status.**  After a reset `TRDY` is `TXDE` and not `HRDF` in every state of a run, and the
    host transmit interrupt is taken only while `HTDE` is set, exactly if the host receive interrupt
    is never taken while `TXDE` is set, and the host transmit interrupt never at all. -/
theorem host_status_iff (c : DspCore) (es : List Ev) :
    (∀ n, (run step c.reset (es.take n)).Coherent) ∧ Along step TransmitWhenEmpty c.reset es ↔
      Along step (fun c e => ¬ (c.TakesHostReceive e ∧ c.txde = true)) c.reset es ∧
      Along step (fun c e => ¬ c.TakesHostTransmit e) c.reset es := by
  have hiff : TransmitWhenEmpty = fun c e => ¬ c.TakesHostTransmit e :=
    funext fun c => funext fun e => propext (transmitWhenEmpty_iff c e)
  rw [hiff]
  exact and_congr_left' (forall_take_iff_along (P := Coherent)
    (G := fun c e => ¬ (c.TakesHostReceive e ∧ c.txde = true))
      (fun _ e h => coherent_step_iff h e) es c.reset
    (coherent_reset c))

/-- A program of zeros, as the CPU sends it. -/
def bootZeros : List Ev := List.replicate 0x200 (.writeHost 7 0)

/-- The DSP runs and enables the host receive interrupt, and the CPU sends a word: when the
    interrupt has been taken, `TXDE` is set and `HRDF` and `TRDY` are clear.  With the host transmit
    interrupt enabled, and two words for the CPU, the interrupt to `p:$0022` is taken while the
    second one is waiting. -/
theorem host_status_unreliable :
    ¬ (run step (default : DspCore).reset
      (bootZeros ++ [.writeMemory .X 0xffe8 1, .writeHost 7 0x55, .hiInterrupts])).Coherent ∧
    (let c := run step (default : DspCore).reset
      (bootZeros ++ [.writeMemory .X 0xffe8 2, .writeMemory .X 0xffeb 1, .writeMemory .X 0xffeb 2])
    c.TakesHostTransmit .hiInterrupts ∧ c.htde = false) := by
  decide +kernel

end Aranym.DspCore
