/-
  The host port as four flags and two data registers.

  `Port` keeps of the port what decides where data goes: the flags `RXDF`, `TXDE`,
  `HRDF` and `HTDE`, the three bytes that are both `RXH`/`RXM`/`RXL` and
  `TXH`/`TXM`/`TXL`, and the word that is both `HRX` and `HTX`.
-/
import Aranym.Dsp.MemoryMap

namespace Aranym

open Lib BitVec

/-- What an access means for the port. -/
inductive Act where
  | txh (v : U8) | txm (v : U8) | txl (v : U8)
  | rxh | rxm | rxl
  | hrx
  | htx (v : U32)
  | none
  deriving DecidableEq

/-- A 24-bit word, from its three bytes. -/
def word (h m l : U8) : U32 :=
  l.setWidth 32 ||| m.setWidth 32 <<< 8 ||| h.setWidth 32 <<< 16

theorem getLsbD_mask24 {i : ℕ} (hi : i < 32) : DspCore.mask24.getLsbD i = decide (i < 24) := by
  rw [show DspCore.mask24 = BitVec.ofNat 32 (2 ^ 24 - 1) from rfl, getLsbD_ofNat,
    Nat.testBit_two_pow_sub_one, decide_eq_true hi, Bool.true_and]

theorem getLsbD_word (h m l : U8) {i : ℕ} (hi : i < 32) : (word h m l).getLsbD i =
    if i < 8 then l.getLsbD i else if i < 16 then m.getLsbD (i - 8) else h.getLsbD (i - 16) := by
  simp only [word, getLsbD_or, getLsbD_setWidth, getLsbD_shiftLeft, hi, decide_true, Bool.true_and]
  split_ifs with h8 h16
  · simp [h8, show i < 16 by omega]
  · simp [h8, h16, getLsbD_of_ge l i (by omega), show i - 8 < 32 by omega]
  · simp [h8, h16, getLsbD_of_ge l i (by omega), getLsbD_of_ge m (i - 8) (by omega),
      show i - 16 < 32 by omega]

theorem word_bytes (x : U32) :
    word ((x >>> 16).setWidth 8) ((x >>> 8).setWidth 8) (x.setWidth 8) = x &&& DspCore.mask24 := by
  refine eq_of_getLsbD_eq fun i hi => ?_
  rw [getLsbD_word _ _ _ hi, getLsbD_and, getLsbD_mask24 hi]
  split_ifs with h8 h16
  · simp [h8, show i < 24 by omega]
  · simp [show i - 8 < 8 by omega, show 8 + (i - 8) = i by omega, show i < 24 by omega]
  · by_cases h24 : i < 24
    · simp [show i - 16 < 8 by omega, show 16 + (i - 16) = i by omega, h24]
    · simp [show ¬ i - 16 < 8 by omega, h24]

theorem word_and_mask24 (h m l : U8) : word h m l &&& DspCore.mask24 = word h m l := by
  refine eq_of_getLsbD_eq fun i hi => ?_
  rw [getLsbD_and, getLsbD_mask24 hi, getLsbD_word _ _ _ hi]
  by_cases h24 : i < 24
  · simp [h24]
  · simp [h24, show ¬ i < 8 by omega, show ¬ i < 16 by omega, getLsbD_of_ge h (i - 16) (by omega)]

theorem byte_back (x : U8) : (x.setWidth 32).setWidth 8 = x := by simp

/-- The flags and the data registers of the port. -/
structure Port where
  rxdf : Bool
  txde : Bool
  hrdf : Bool
  htde : Bool
  h : U8
  m : U8
  l : U8
  data : U32
  deriving DecidableEq

namespace Port

/-- A word to the CPU. -/
def dsp2host (p : Port) : Port :=
  if p.rxdf then p else if p.htde then p
  else { p with h := (p.data >>> 16).setWidth 8, m := (p.data >>> 8).setWidth 8
                l := p.data.setWidth 8, htde := true, rxdf := true }

/-- A word to the DSP. -/
def host2dsp (p : Port) : Port :=
  if p.txde then p else if p.hrdf then p
  else { p with data := word p.h p.m p.l, hrdf := true, txde := true }

/-- One access, and what it returns. -/
def step (p : Port) : Act → Port × U32
  | .txh v => ({ p with h := v }, 0)
  | .txm v => ({ p with m := v }, 0)
  | .txl v => ({ p with l := v, txde := false }.host2dsp, 0)
  | .rxh => (p, p.h.setWidth 32)
  | .rxm => (p, p.m.setWidth 32)
  | .rxl => ({ p with rxdf := false }.dsp2host, p.l.setWidth 32)
  | .hrx => let p := { p with hrdf := false }.host2dsp; (p, p.data &&& DspCore.mask24)
  | .htx v => ({ p with data := v &&& DspCore.mask24, htde := false }.dsp2host, 0)
  | .none => (p, 0)

end Port

namespace DspCore

/-- Which part of the port an access is about. -/
def Ev.act : Ev → Act
  | .readHost 0x05 => .rxh
  | .readHost 0x06 => .rxm
  | .readHost 0x07 => .rxl
  | .writeHost 0x05 v => .txh v
  | .writeHost 0x06 v => .txm v
  | .writeHost 0x07 v => .txl v
  | .readMemory .X address => if address = 0xffeb then .hrx else .none
  | .writeMemory .X address v => if address = 0xffeb then .htx v else .none
  | _ => .none

/-- The port of the code. -/
def view (c : DspCore) : Port where
  rxdf := c.rxdf
  txde := c.txde
  hrdf := c.hrdf
  htde := c.htde
  h := c.hostport cpuHostRXH
  m := c.hostport cpuHostRXM
  l := c.hostport cpuHostRXL
  data := c.periph .X hostHRX

/-! ## Single registers -/

variable {c : DspCore}

theorem view_setISR (v : U8) : (c.setHostport cpuHostISR v).view =
    { c.view with rxdf := v.getLsbD 0, txde := v.getLsbD 1 } := rfl

theorem view_setHSR (v : U32) : (c.setPeriph .X hostHSR v).view =
    { c.view with hrdf := v.getLsbD 0, htde := v.getLsbD 1 } := rfl

theorem view_setHSR_same {v : U32} (h0 : v.getLsbD 0 = c.hsr.getLsbD 0)
    (h1 : v.getLsbD 1 = c.hsr.getLsbD 1) : (c.setPeriph .X hostHSR v).view = c.view := by
  rw [view_setHSR, h0, h1]; rfl

theorem view_setISR_same {v : U8} (h0 : v.getLsbD 0 = c.isr.getLsbD 0)
    (h1 : v.getLsbD 1 = c.isr.getLsbD 1) : (c.setHostport cpuHostISR v).view = c.view := by
  rw [view_setISR, h0, h1]; rfl

theorem view_setX {i : ℕ} (hs : i ≠ hostHSR) (hx : i ≠ hostHRX) (v : U32) :
    (c.setPeriph .X i v).view = c.view := by
  simp [view, rxdf, txde, hrdf, htde, isr, hsr, setPeriph, hs.symm, hx.symm]

theorem bit0_iff {w : ℕ} (x : BitVec (w + 2)) : x &&& 1 ≠ 0 ↔ x.getLsbD 0 = true := by
  have h := and_bit_eq_zero (x := x) (j := 0)
  rw [shiftLeft_zero] at h
  exact (not_congr h).trans (by simp)

theorem bit1_iff {w : ℕ} (x : BitVec (w + 2)) : x &&& 2 ≠ 0 ↔ x.getLsbD 1 = true := by
  have h := and_bit_eq_zero (x := x) (j := 1)
  have h2 : 1#(w + 2) <<< 1 = (2 : BitVec (w + 2)) := by
    apply BitVec.eq_of_toNat_eq
    simp
  rw [h2] at h
  exact (not_congr h).trans (by simp)

/-! ## Transfers -/

section Flags
variable {w : ℕ} (x : BitVec (w + 2)) (y : BitVec (w + 8))

theorem or_one : (x ||| 1).getLsbD 0 = true ∧ (x ||| 1).getLsbD 1 = x.getLsbD 1 := by simp

theorem or_two : (x ||| 2).getLsbD 0 = x.getLsbD 0 ∧ (x ||| 2).getLsbD 1 = true := by
  simp only [getLsbD_or, ofNat_eq_ofNat, getLsbD_ofNat]
  simp [Nat.testBit]

theorem and_fe : (y &&& 0xfe).getLsbD 0 = false ∧ (y &&& 0xfe).getLsbD 1 = y.getLsbD 1 := by
  simp only [getLsbD_and, ofNat_eq_ofNat, getLsbD_ofNat]
  simp [Nat.testBit]

theorem and_fd : (y &&& 0xfd).getLsbD 0 = y.getLsbD 0 ∧ (y &&& 0xfd).getLsbD 1 = false := by
  simp only [getLsbD_and, ofNat_eq_ofNat, getLsbD_ofNat]
  simp [Nat.testBit]

end Flags

theorem view_hostportUpdateTrdy : c.hostportUpdateTrdy.view = c.view := by
  unfold hostportUpdateTrdy
  rw [view_setISR_same, view_setISR_same]
  all_goals simp

theorem view_dsp2host : c.dsp2host.view = c.view.dsp2host := by
  unfold dsp2host Port.dsp2host
  simp only [bit0_iff, bit1_iff]
  have hr : c.isr.getLsbD 0 = c.view.rxdf := rfl
  have ht : c.hsr.getLsbD 1 = c.view.htde := rfl
  rw [hr, ht]
  split_ifs
  · rfl
  · rfl
  · rw [view_setISR, view_setHSR, (or_one _).1, (or_one _).2, (or_two _).1, (or_two _).2]
    rfl

theorem view_host2dsp : c.host2dsp.view = c.view.host2dsp := by
  unfold host2dsp Port.host2dsp
  simp only [bit0_iff, bit1_iff]
  have hr : c.isr.getLsbD 1 = c.view.txde := rfl
  have ht : c.hsr.getLsbD 0 = c.view.hrdf := rfl
  rw [hr, ht]
  split_ifs
  · rfl
  · rfl
  · rw [view_hostportUpdateTrdy, view_setISR, view_setHSR, (or_one _).1, (or_one _).2,
      (or_two _).1, (or_two _).2]
    rfl

theorem view_hostportDspread : c.hostportDspread.view = { c.view with hrdf := false }.host2dsp := by
  unfold hostportDspread
  rw [view_host2dsp, view_hostportUpdateTrdy, view_setHSR, (and_fe _).1, (and_fe _).2]
  rfl

theorem view_hostportDspwrite :
    c.hostportDspwrite.view = { c.view with htde := false }.dsp2host := by
  unfold hostportDspwrite
  rw [view_dsp2host, view_setHSR, (and_fd _).1, (and_fd _).2]
  rfl

theorem view_hostportCpuread : c.hostportCpuread.view = { c.view with rxdf := false }.dsp2host := by
  unfold hostportCpuread
  rw [view_dsp2host, view_setISR, (and_fe _).1, (and_fe _).2]
  rfl

theorem view_hostportCpuwrite :
    c.hostportCpuwrite.view = { c.view with txde := false }.host2dsp := by
  unfold hostportCpuwrite
  rw [view_host2dsp, view_hostportUpdateTrdy, view_setISR, (and_fd _).1, (and_fd _).2]
  rfl

/-! ## Accesses -/

theorem view_readHost (addr : ℕ) :
    (c.readHost addr).2.view = (c.view.step (Ev.readHost addr).act).1 := by
  unfold readHost
  by_cases h7 : addr = 7
  · subst h7; exact view_hostportCpuread
  · rw [if_neg (show ¬ addr = cpuHostRXL from h7)]
    unfold Ev.act
    split <;> simp_all [Port.step]

theorem view_writeICR (value : U8) : (c.writeHost 0 value).view = c.view := by
  simp only [writeHost]
  rw [view_setHSR_same, view_setHSR_same]
  · rfl
  all_goals simp

theorem view_writeCVR (value : U8) : (c.writeHost 1 value).view = c.view := by
  simp only [writeHost]
  split_ifs
  · rw [view_setHSR_same]
    · rfl
    all_goals simp
  · rfl

theorem view_writeHost (addr : ℕ) (value : U8) (hr : addr = 7 → c.running = true) :
    (c.writeHost addr value).view = (c.view.step (Ev.writeHost addr value).act).1 := by
  match addr with
  | 0 => exact view_writeICR value
  | 1 => exact view_writeCVR value
  | 2 | 3 | 4 | 5 | 6 => rfl
  | 7 =>
    simp only [writeHost]
    rw [if_pos (show (c.setHostport cpuHostRXL value).running = true from hr rfl),
      view_hostportCpuwrite]
    rfl
  | _ + 8 => rfl

section

variable (space : DspSpace) (address : U16)

theorem view_readMemory :
    (c.readMemory space address).2.view = (c.view.step (Ev.readMemory space address).act).1 := by
  rw [readMemory_snd]
  split_ifs with h
  · obtain ⟨rfl, rfl⟩ := h
    exact view_hostportDspread
  · have hact : (Ev.readMemory space address).act = .none := by
      cases space <;> simp_all [Ev.act]
    rw [hact]
    rfl

theorem view_writePeriphX {i : ℕ} (hi : i ≠ 0x2b) (value : U32) :
    (c.writePeriphX i value).view = c.view := by
  unfold writePeriphX
  split
  · exact absurd rfl hi
  · rw [view_setISR_same, view_setISR_same, view_setX (by decide) (by decide)]
    all_goals simp
  · rfl
  · exact view_setX ‹_› ‹_› _

theorem view_writeMemoryRaw (value : U32) : (c.writeMemoryRaw space address value).view =
      (c.view.step (Ev.writeMemory space address value).act).1 := by
  by_cases h : space = .X ∧ address = 0xffeb
  · obtain ⟨rfl, rfl⟩ := h
    unfold writeMemoryRaw
    rw [if_neg (by decide), if_neg (fun h => absurd h.2 (by decide)), if_pos (by decide)]
    exact view_hostportDspwrite
  · have hact : (Ev.writeMemory space address value).act = .none := by
      cases space <;> simp_all [Ev.act]
    unfold writeMemoryRaw
    rw [hact]
    by_cases ha : address < 0x100
    · rw [if_pos ha]; rfl
    · rw [if_neg ha]
      cases space with
      | X =>
        dsimp only
        split_ifs
        · rfl
        · refine view_writePeriphX (fun hi => h ⟨rfl, ?_⟩) _
          bv_omega
        · rfl
      | Y | P => dsimp only; split_ifs <;> rfl

/-- The interrupts leave the port alone, but the host receive interrupt clears `HRDF`. -/
theorem view_hiInterrupts : c.hiInterrupts.2.view = c.view ∨
    (¬ c.hostCommand ∧ c.hostReceive) ∧ c.hiInterrupts.2.view = { c.view with hrdf := false } := by
  unfold hiInterrupts
  split_ifs with hc hr ht
  · refine .inl ?_
    have h := view_setHSR_same (c := c) (v := c.hsr &&& 0xfb) (by simp) (by simp)
    exact h
  · refine .inr ⟨⟨hc, hr⟩, ?_⟩
    have h := view_setHSR (c := c) (c.hsr &&& 0xfe)
    rw [(and_fe _).1, (and_fe _).2] at h
    exact h
  · -- the flag is cleared when it is clear already
    refine .inl ?_
    have h1 : c.hsr.getLsbD 1 = false := Bool.not_eq_true _ ▸ (bit1_iff _).not.1 (not_not.2 ht.2)
    have h := view_setHSR_same (c := c) (v := c.hsr &&& 0xfd) (and_fd _).1
      ((and_fd _).2.trans h1.symm)
    exact h
  · exact .inl rfl

end

/-! ## The view of a step -/

/-- The access takes the host receive interrupt. -/
def TakesHostReceive (c : DspCore) (e : Ev) : Prop :=
  e = .hiInterrupts ∧ ¬ c.hostCommand ∧ c.hostReceive
deriving Decidable

/-- The access takes the host transmit interrupt. -/
def TakesHostTransmit (c : DspCore) (e : Ev) : Prop :=
  e = .hiInterrupts ∧ ¬ c.hostCommand ∧ ¬ c.hostReceive ∧ c.hostTransmit
deriving Decidable

/-- **The view of a step.**  Writes of `TXL` are transfers only while the DSP runs. -/
theorem view_step (e : Ev) (hr : ∀ v, e.act = .txl v → c.running = true) :
    (c.step e).1.view = (c.view.step e.act).1 ∨
      c.TakesHostReceive e ∧ e.act = .none ∧ (c.step e).1.view = { c.view with hrdf := false } := by
  cases e with
  | readHost addr => exact .inl (view_readHost addr)
  | writeHost addr value =>
    exact .inl (view_writeHost addr value fun h => hr value (by rw [h]; rfl))
  | readMemory space address => exact .inl (view_readMemory space address)
  | writeMemory space address value => exact .inl (view_writeMemoryRaw space address value)
  | hiInterrupts =>
    rcases view_hiInterrupts (c := c) with h | ⟨ht, h⟩
    · exact .inl h
    · exact .inr ⟨⟨rfl, ht⟩, rfl, h⟩

theorem out_step {e : Ev} (he : e.act ≠ .none) : (c.step e).2 = (c.view.step e.act).2 := by
  cases e with
  | readHost addr =>
    unfold Ev.act at he ⊢
    split <;> simp_all [step, readHost, Port.step, view, cpuHostRXH, cpuHostRXM, cpuHostRXL]
  | writeHost addr value =>
    unfold Ev.act at he ⊢
    split <;> simp_all [step, Port.step]
  | readMemory space address =>
    have hx : space = .X ∧ address = 0xffeb := by
      cases space <;> simp_all [Ev.act]
    obtain ⟨rfl, rfl⟩ := hx
    have hv := view_hostportDspread (c := c)
    simp only [step, readMemory]
    rw [if_neg (by decide), if_neg (by decide), if_neg (fun h => absurd h.2 (by decide)),
      if_pos (by decide)]
    exact congrArg (fun p : Port => p.data &&& mask24) hv
  | writeMemory space address value =>
    have hx : space = .X ∧ address = 0xffeb := by
      cases space <;> simp_all [Ev.act]
    obtain ⟨rfl, rfl⟩ := hx
    rfl
  | hiInterrupts => exact absurd rfl he

end DspCore

end Aranym
