/-
  The two programs that talk through the host port.

  `Talk` records what the program of the CPU and the program of the DSP have
  done: where the CPU is in the word it writes or reads byte by byte, and the
  words that each side has sent and received.  A `Link` is a DSP with such a
  record.
-/
import Aranym.Dsp.Port

namespace Aranym

open Lib DspCore

/-! ## Links -/

/-- What the two programs have done. -/
structure Talk where
  /-- how many bytes of a word the CPU has written -/
  txPhase : ℕ
  txH : U8
  txM : U8
  /-- how many bytes of a word the CPU has read -/
  rxPhase : ℕ
  rxH : U8
  rxM : U8
  hostSent : List U32
  dspGot : List U32
  dspSent : List U32
  hostGot : List U32
  deriving DecidableEq

namespace Talk

variable (t : Talk)

/-- Nothing sent or received yet. -/
def start : Talk := ⟨0, 0, 0, 0, 0, 0, [], [], [], []⟩

/-- An access that returned `out`. -/
def note (out : U32) : Act → Talk
  | .txh v => { t with txPhase := 1, txH := v }
  | .txm v => { t with txPhase := 2, txM := v }
  | .txl v => { t with txPhase := 0, hostSent := t.hostSent ++ [word t.txH t.txM v] }
  | .rxh => { t with rxPhase := 1, rxH := out.setWidth 8 }
  | .rxm => { t with rxPhase := 2, rxM := out.setWidth 8 }
  | .rxl => { t with rxPhase := 0, hostGot := t.hostGot ++ [word t.rxH t.rxM (out.setWidth 8)] }
  | .hrx => { t with dspGot := t.dspGot ++ [out] }
  | .htx v => { t with dspSent := t.dspSent ++ [v &&& mask24] }
  | .none => t

end Talk

/-- The DSP, and what the two programs have done. -/
structure Link where
  core : DspCore
  talk : Talk

variable (c : DspCore) (k : Link) (t : Talk) (p : Port)

namespace Link

/-- One access, noted in the record. -/
def step (k : Link) (e : Ev) : Link × U32 :=
  (⟨(k.core.step e).1, k.talk.note (k.core.step e).2 e.act⟩, (k.core.step e).2)

/-- A DSP before the first access. -/
def start (c : DspCore) : Link := ⟨c, .start⟩

/-- A property of the port and the record is kept if the access keeps it at the level of the port,
    and the host receive interrupt does, where it is taken. -/
theorem inv_step {P : Port → Talk → Prop} {k : Link} {e : Ev}
    (hr : ∀ v, e.act = .txl v → k.core.running = true)
    (hact : P (k.core.view.step e.act).1 (k.talk.note (k.core.view.step e.act).2 e.act))
    (hrecv : k.core.TakesHostReceive e → P { k.core.view with hrdf := false } k.talk) :
    P (k.step e).1.core.view (k.step e).1.talk := by
  rcases view_step e hr with hv | ⟨ht, he, hv⟩
  · have hn : k.talk.note (k.core.step e).2 e.act =
        k.talk.note (k.core.view.step e.act).2 e.act := by
      by_cases he : e.act = .none
      · rw [he]; rfl
      · rw [out_step he]
    show P (k.core.step e).1.view (k.talk.note (k.core.step e).2 e.act)
    rw [hv, hn]; exact hact
  · show P (k.core.step e).1.view (k.talk.note (k.core.step e).2 e.act)
    rw [hv, he]; exact hrecv ht

/-! ## The port at the start -/

end Link

namespace DspCore

/-- Nothing is on its way. -/
def Empty : Prop :=
  c.txde = true ∧ c.hrdf = false ∧ c.htde = true ∧ c.rxdf = false
deriving Decidable

theorem empty_reset : c.reset.Empty := by
  simp [Empty, txde, hrdf, htde, rxdf, isr, hsr, reset, cpuHostISR, cpuHostCVR]

/-- A DSP that has been started with an empty program. -/
def idle : DspCore := { (default : DspCore).reset with running := true }

theorem empty_idle : idle.Empty := empty_reset default

/-! ## The bootstrap program -/

/-- The accesses of the CPU. -/
def Ev.byCpu : Ev → Bool
  | .readHost _ | .writeHost _ _ => true
  | _ => false

/-- What the CPU has sent to a DSP that waits for its program. -/
structure Boot where
  high : U8
  middle : U8
  words : List U32

/-- `TXL` completes a word. -/
def Boot.step (b : Boot) : Ev → Boot
  | .writeHost 5 v => { b with high := v }
  | .writeHost 6 v => { b with middle := v }
  | .writeHost 7 v => { b with words := b.words ++ [word b.high b.middle v] }
  | _ => b

theorem Boot.length_le_step (b : Boot) (e : Ev) : b.words.length ≤ (b.step e).words.length := by
  unfold Boot.step
  split <;> simp

/-- `c` is `c₀` with the words so far at the beginning of its program memory; it runs once it has
    all of them. -/
structure Loading (c₀ c : DspCore) (b : Boot) : Prop where
  high : c.hostport cpuHostRXH = b.high
  middle : c.hostport cpuHostRXM = b.middle
  htde : c.htde = true
  pos : c.bootstrapPos.toNat = b.words.length
  running : c.running = decide (b.words.length = 0x200)
  ram : c.ramint = Function.update c₀.ramint .P fun a => b.words.getD a (c₀.ramint .P a)

variable {c c₀ : DspCore} {b : Boot}

theorem update_getD (ws : List U32) (w : U32) (f : ℕ → U32) :
    Function.update (fun a => ws.getD a (f a)) ws.length w = fun a => (ws ++ [w]).getD a (f a) := by
  funext a
  rcases lt_trichotomy a ws.length with ha | rfl | ha
  · simp [ha, ha.ne, List.getElem?_append]
  · simp
  · have hle : (ws ++ [w]).length ≤ a := List.length_append.trans_le ha
    simp [ha.ne', ha.le, hle, -List.length_append]

theorem Loading.word (h : Loading c₀ c b) (v : U8)
    (hn : (b.step (.writeHost 7 v)).words.length ≤ 0x200) :
    Loading c₀ (c.writeHost 7 v) (b.step (.writeHost 7 v)) := by
  have hlen : (b.step (.writeHost 7 v)).words.length = b.words.length + 1 := List.length_append
  have hnext : (c.bootstrapPos + 1).toNat = (b.step (.writeHost 7 v)).words.length := by
    rw [BitVec.toNat_add, h.pos, hlen]
    simp
    omega
  have hlast : c.bootstrapPos + 1 = 0x200 ↔ (b.step (.writeHost 7 v)).words.length = 0x200 := by
    rw [← hnext, ← BitVec.toNat_inj]
    rfl
  have hword : (c.setHostport cpuHostRXL v).txWord = Aranym.word b.high b.middle v := by
    rw [← h.high, ← h.middle, Aranym.word, BitVec.or_comm (v.setWidth 32), BitVec.or_comm,
      ← BitVec.or_assoc]
    rfl
  have hram : (c.setRamint .P c.bootstrapPos.toNat (Aranym.word b.high b.middle v)).ramint =
      Function.update c₀.ramint .P fun a =>
        (b.step (.writeHost 7 v)).words.getD a (c₀.ramint .P a) := by
    rw [setRamint, h.ram, Function.update_idem, Function.update_self, h.pos, update_getD]
    rfl
  have hstop : (c.setHostport cpuHostRXL v).running = false :=
    h.running.trans (decide_eq_false (by omega))
  simp only [writeHost]
  rw [if_neg (by simp [hstop]), bootstrapWord, hword]
  split_ifs with hl
  · exact ⟨h.high, h.middle, h.htde, hnext, (decide_eq_true (hlast.1 hl)).symm, hram⟩
  · exact ⟨h.high, h.middle, h.htde, hnext,
      hstop.trans (decide_eq_false (mt hlast.2 hl)).symm, hram⟩

theorem Loading.readHost (h : Loading c₀ c b) (addr : ℕ) : Loading c₀ (c.readHost addr).2 b := by
  unfold DspCore.readHost hostportCpuread
  split_ifs
  · -- there is nothing for the CPU
    have hdone : c.hsr &&& 2 ≠ 0 := (bit1_iff c.hsr).2 h.htde
    rw [dsp2host, if_pos (show (c.setHostport cpuHostISR _).hsr &&& 2 ≠ 0 from hdone), ite_self]
    exact ⟨h.high, h.middle, h.htde, h.pos, h.running, h.ram⟩
  · exact h

/-- One write of the host during the bootstrap. -/
theorem Loading.writeHost (h : Loading c₀ c b) (addr : ℕ) (v : U8)
    (hn : (b.step (.writeHost addr v)).words.length ≤ 0x200) :
    Loading c₀ (c.writeHost addr v) (b.step (.writeHost addr v)) := by
  match addr with
  | 0 =>
    have hv := congrArg Port.htde (view_writeICR (c := c) v)
    exact ⟨h.high, h.middle, hv.trans h.htde, h.pos, h.running, h.ram⟩
  | 1 =>
    have hv := congrArg Port.htde (view_writeCVR (c := c) v)
    simp only [DspCore.writeHost] at hv ⊢
    split_ifs at hv ⊢
    all_goals exact ⟨h.high, h.middle, hv.trans h.htde, h.pos, h.running, h.ram⟩
  | 2 | 3 | 4 => exact ⟨h.high, h.middle, h.htde, h.pos, h.running, h.ram⟩
  | 5 => exact ⟨rfl, h.middle, h.htde, h.pos, h.running, h.ram⟩
  | 6 => exact ⟨h.high, rfl, h.htde, h.pos, h.running, h.ram⟩
  | 7 => exact h.word v hn
  | _ + 8 => exact h

/-- **Bootstrap.**  However the CPU uses the port after a reset, the words it completes are the
    program. -/
theorem program_loaded (c : DspCore) (es : List Ev) (hcpu : ∀ e ∈ es, e.byCpu)
    (hlen : (es.foldl Boot.step ⟨c.hostport 5, c.hostport 6, []⟩).words.length ≤ 0x200) :
    Loading c (run step c.reset es) (es.foldl Boot.step ⟨c.hostport 5, c.hostport 6, []⟩) := by
  induction es using List.reverseRecOn with
  | nil => exact ⟨rfl, rfl, by simp [htde, hsr, run, reset], rfl, rfl, by simp [run, reset]⟩
  | append_singleton es e ih =>
    rw [List.foldl_append] at hlen ⊢
    rw [run_append]
    have h := ih (fun e he => hcpu e (by simp [he])) ((Boot.length_le_step _ e).trans hlen)
    have he := hcpu e (by simp)
    cases e with
    | readHost addr => exact h.readHost addr
    | writeHost addr v => exact h.writeHost addr v hlen
    | readMemory | writeMemory | hiInterrupts => cases he

/-- Two words, the first one with a look at `ISR` in between; the second one keeps its high byte. -/
theorem first_words_loaded :
    let c := run step (default : DspCore).reset
      [.writeHost 5 1, .writeHost 6 2, .readHost 2, .writeHost 7 3, .writeHost 6 5, .writeHost 7 6]
    c.ramint .P 0 = 0x010203 ∧ c.ramint .P 1 = 0x010506 := by
  dsimp only
  rw [(program_loaded default _ (by decide) (by decide)).ram]
  exact ⟨rfl, rfl⟩

end DspCore

/-! ## From the CPU to the DSP -/

attribute [local simp] Port.step Port.host2dsp Port.dsp2host Talk.start Talk.note

namespace Talk

/-- The accesses to the port that the CPU makes to send words and the DSP to read them: the bytes in
    order, `TXL` only with `TXDE` and `HRX` only with `HRDF`; the DSP sends nothing. -/
def hostToDsp : Act → Bool
  | .txh _ => t.txPhase = 0
  | .txm _ => t.txPhase = 1
  | .txl _ => t.txPhase = 2 && p.txde
  | .hrx => p.hrdf
  | .htx _ => false
  | .rxh | .rxm | .rxl | .none => true

/-- No further word waits in the transmit registers when the DSP reads. -/
def noneWaiting : Act → Bool
  | .hrx => p.txde
  | _ => true

/-- The words sent are those read, then the one in `HRX`, then the one in the transmit registers. -/
structure ToDsp (p : Port) (t : Talk) : Prop where
  htde : p.htde = true
  sent : ∃ waiting, t.hostSent =
    t.dspGot ++ (if p.hrdf then [p.data] else []) ++ (if p.txde then [] else [waiting])
  waits : p.txde = false → p.hrdf = true
  masked : p.hrdf = true → p.data &&& mask24 = p.data
  high : 1 ≤ t.txPhase → p.h = t.txH
  middle : 2 ≤ t.txPhase → p.m = t.txM

namespace ToDsp
variable {p : Port} {t : Talk}

theorem start (ht : p.txde) (hr : p.hrdf = false) (hd : p.htde) : ToDsp p .start :=
  ⟨hd, ⟨0, by simp [ht, hr]⟩, by simp [ht], by simp [hr], by simp, by simp⟩

/-- The third byte: the word goes to `HRX`, or waits if that holds a word. -/
theorem txl (h : ToDsp p t) (h2 : t.txPhase = 2) (ht : p.txde) (v : U8) :
    ToDsp (p.step (.txl v)).1 (t.note 0 (.txl v)) := by
  obtain ⟨hd, ⟨w, hs⟩, -, hm, hh, hmid⟩ := h
  cases hr : p.hrdf with
  | true =>
    refine ⟨?_, ⟨word t.txH t.txM v, ?_⟩, ?_, ?_, ?_, ?_⟩
    all_goals simp_all
  | false =>
    refine ⟨?_, ⟨0, ?_⟩, ?_, fun _ => ?_, ?_, ?_⟩
    case refine_4 => simp [hr, word_and_mask24]
    all_goals simp_all

theorem hrx (h : ToDsp p t) (hr : p.hrdf) (ht : p.txde) :
    ToDsp (p.step .hrx).1 (t.note (p.step .hrx).2 .hrx) := by
  obtain ⟨hd, ⟨w, hs⟩, -, hm, hh, hmid⟩ := h
  have hp : { p with hrdf := false }.host2dsp = { p with hrdf := false } := by
    simp [ht]
  simp only [Port.step, hp, note, hm hr]
  refine ⟨hd, ⟨0, ?_⟩, ?_, ?_, hh, hmid⟩
  all_goals simp_all

/-- A read of `RXL` finds nothing to transfer: the DSP sends nothing. -/
theorem rxl (h : ToDsp p t) (out : U32) : ToDsp (p.step .rxl).1 (t.note out .rxl) := by
  have hp : { p with rxdf := false }.dsp2host = { p with rxdf := false } := by
    simp [h.htde]
  simp only [Port.step, hp, note]
  exact ⟨h.htde, h.sent, h.waits, h.masked, h.high, h.middle⟩

theorem step (h : ToDsp p t) : ∀ {a : Act}, t.hostToDsp p a = true → noneWaiting p a = true →
    ToDsp (p.step a).1 (t.note (p.step a).2 a)
  | .txh v, _, _ => ⟨h.htde, h.sent, h.waits, h.masked, fun _ => rfl, fun h2 => by simp at h2⟩
  | .txm v, hg, _ => by
    have h1 : t.txPhase = 1 := by simpa [hostToDsp] using hg
    exact ⟨h.htde, h.sent, h.waits, h.masked, fun _ => h.high (by omega), fun _ => rfl⟩
  | .txl v, hg, _ => by
    simp only [hostToDsp, Bool.and_eq_true, decide_eq_true_eq] at hg
    exact h.txl hg.1 hg.2 v
  | .hrx, hg, hn => h.hrx hg hn
  | .htx _, hg, _ => by simp [hostToDsp] at hg
  | .rxh, _, _ | .rxm, _, _ => ⟨h.htde, h.sent, h.waits, h.masked, h.high, h.middle⟩
  | .rxl, _, _ => h.rxl _
  | .none, _, _ => h

theorem got_of_sent (h : ToDsp p t) : t.dspGot <+: t.hostSent := by
  obtain ⟨w, hs⟩ := h.sent
  rw [hs, List.append_assoc]; exact List.prefix_append _ _

end ToDsp

end Talk

namespace Link

/-- The CPU sends, the DSP reads, and the host receive interrupt is off. -/
def HostToDsp (e : Ev) : Prop :=
  ¬ k.core.TakesHostReceive e ∧ k.talk.hostToDsp k.core.view e.act = true
deriving Decidable

/-- The DSP reads `HRX` only with `TXDE` set. -/
def NoneWaiting (e : Ev) : Prop := Talk.noneWaiting k.core.view e.act = true
deriving Decidable

/-- **From the CPU to the DSP.**  In every run in which both sides obey the flags and no further
    word is waiting when the DSP reads, the words read are the first of the words sent. -/
theorem host_to_dsp_in_order (hr : c.running = true) (he : c.Empty) (es : List Ev)
    (hobey : Along step HostToDsp (start c) es) (hnone : Along step NoneWaiting (start c) es) :
    (run step (start c) es).talk.dspGot <+: (run step (start c) es).talk.hostSent := by
  have hinv := run_inv (P := fun k : Link => k.core.running = true ∧ Talk.ToDsp k.core.view k.talk)
    (fun k e h hg => ⟨running_step h.1 e, inv_step (fun _ _ => h.1) (h.2.step hg.1.2 hg.2)
      fun ht => absurd ht hg.1.1⟩)
    es (start c) ⟨hr, .start he.1 he.2.1 he.2.2.1⟩ (along_and _ es hobey hnone)
  exact hinv.2.got_of_sent

/-- Two words, each read before the next one is written. -/
theorem host_to_dsp_in_order_two :
    let es : List Ev :=
      [.writeHost 5 0x11, .writeHost 6 0x22, .writeHost 7 0x33, .readMemory .X 0xffeb,
      .writeHost 5 0x44, .writeHost 6 0x55, .writeHost 7 0x66, .readMemory .X 0xffeb]
    (run step (start idle) es).talk.dspGot <+: (run step (start idle) es).talk.hostSent :=
  host_to_dsp_in_order idle rfl empty_idle _ (by decide +kernel) (by decide +kernel)

/-- With a second word waiting, the first one is lost: the DSP reads the second. -/
theorem host_to_dsp_first_word_lost :
    let es : List Ev := [.writeHost 5 0x11, .writeHost 6 0x22, .writeHost 7 0x33,
      .writeHost 5 0x44, .writeHost 6 0x55, .writeHost 7 0x66, .readMemory .X 0xffeb]
    Along step HostToDsp (start idle) es ∧
      (run step (start idle) es).talk.hostSent = [0x112233, 0x445566] ∧
      (run step (start idle) es).talk.dspGot = [0x445566] := by
  decide +kernel

end Link

/-! ## From the DSP to the CPU -/

namespace Talk

/-- The accesses to the port that the DSP makes to send words and the CPU to read them: the bytes in
    order, `RXL` only with `RXDF` and `HTX` only with `HTDE`; the CPU sends nothing. -/
def dspToHost : Act → Bool
  | .rxh => t.rxPhase = 0
  | .rxm => t.rxPhase = 1
  | .rxl => t.rxPhase = 2 && p.rxdf
  | .htx _ => p.htde
  | .txh _ | .txm _ | .txl _ => false
  | .hrx | .none => true

/-- The CPU reads the high and the middle byte only with `RXDF` set. -/
def rxChecked : Act → Bool
  | .rxh | .rxm => p.rxdf
  | _ => true

/-- The words sent are those read, then the one in the receive registers, then the one in `HTX`. -/
structure ToHost (p : Port) (t : Talk) : Prop where
  txde : p.txde = true
  sent : t.dspSent =
    t.hostGot ++ (if p.rxdf then [word p.h p.m p.l] else []) ++ (if p.htde then [] else [p.data])
  waits : p.htde = false → p.rxdf = true
  masked : p.htde = false → p.data &&& mask24 = p.data
  high : 1 ≤ t.rxPhase → p.rxdf = true ∧ p.h = t.rxH
  middle : 2 ≤ t.rxPhase → p.m = t.rxM

namespace ToHost
variable {p : Port} {t : Talk}

theorem start (ht : p.txde) (hr : p.rxdf = false) (hd : p.htde) : ToHost p .start :=
  ⟨ht, by simp [hd, hr], by simp [hd], by simp [hd], by simp, by simp⟩

/-- The third byte: the word that waits in `HTX`, if there is one, takes the place of the word
    read. -/
theorem rxl (h : ToHost p t) (h2 : t.rxPhase = 2) (hr : p.rxdf) :
    ToHost (p.step .rxl).1 (t.note (p.step .rxl).2 .rxl) := by
  obtain ⟨ht, hs, -, hm, hh, hmid⟩ := h
  simp only [hr, if_true] at hs
  cases hd : p.htde with
  | true =>
    constructor
    all_goals simp_all
  | false =>
    have hx := word_bytes p.data
    constructor
    all_goals simp_all

/-- The DSP writes: the word goes to the receive registers, or waits if they hold a word. -/
theorem htx (h : ToHost p t) (hd : p.htde) (v : U32) :
    ToHost (p.step (.htx v)).1 (t.note 0 (.htx v)) := by
  obtain ⟨ht, hs, -, -, hh, hmid⟩ := h
  have hv : v &&& mask24 &&& mask24 = v &&& mask24 := by rw [BitVec.and_assoc, BitVec.and_self]
  cases hr : p.rxdf with
  | true =>
    constructor
    all_goals simp_all
  | false =>
    have hx := word_bytes (v &&& mask24)
    constructor
    all_goals simp_all

/-- A read of `HRX` finds nothing to transfer: the CPU sends nothing. -/
theorem hrx (h : ToHost p t) (out : U32) : ToHost (p.step .hrx).1 (t.note out .hrx) := by
  have hp : { p with hrdf := false }.host2dsp = { p with hrdf := false } := by
    simp [h.txde]
  simp only [Port.step, hp, note]
  exact ⟨h.txde, h.sent, h.waits, h.masked, h.high, h.middle⟩

theorem step (h : ToHost p t) : ∀ {a : Act}, t.dspToHost p a = true → rxChecked p a = true →
    ToHost (p.step a).1 (t.note (p.step a).2 a)
  | .rxh, _, hc => ⟨h.txde, h.sent, h.waits, h.masked, fun _ => ⟨hc, (byte_back _).symm⟩,
      fun h2 => by simp at h2⟩
  | .rxm, hg, hc => by
    have h1 : t.rxPhase = 1 := by simpa [dspToHost] using hg
    exact ⟨h.txde, h.sent, h.waits, h.masked, fun _ => ⟨hc, (h.high (by omega)).2⟩,
      fun _ => (byte_back _).symm⟩
  | .rxl, hg, _ => by
    simp only [dspToHost, Bool.and_eq_true, decide_eq_true_eq] at hg
    exact h.rxl hg.1 hg.2
  | .htx v, hg, _ => h.htx hg v
  | .hrx, _, _ => h.hrx _
  | .txh _, hg, _ | .txm _, hg, _ | .txl _, hg, _ => by simp [dspToHost] at hg
  | .none, _, _ => h

theorem got_of_sent (h : ToHost p t) : t.hostGot <+: t.dspSent := by
  rw [h.sent, List.append_assoc]; exact List.prefix_append _ _

end ToHost

end Talk

namespace Link

/-- The DSP sends, the CPU reads, and the host transmit interrupt, which clears `HTDE` again if the
    CPU has taken the word meanwhile, is off. -/
def DspToHost (e : Ev) : Prop :=
  ¬ k.core.TakesHostTransmit e ∧ k.talk.dspToHost k.core.view e.act = true
deriving Decidable

/-- The CPU reads `RXH` and `RXM` only with `RXDF` set. -/
def RxChecked (e : Ev) : Prop := Talk.rxChecked k.core.view e.act = true
deriving Decidable

/-- **From the DSP to the CPU.**  In every run in which both sides obey the flags and the CPU reads
    all three bytes with `RXDF` set, the words assembled are the first of the words sent. -/
theorem dsp_to_host_in_order (he : c.Empty) (es : List Ev)
    (hobey : Along step DspToHost (start c) es) (hchk : Along step RxChecked (start c) es) :
    (run step (start c) es).talk.hostGot <+: (run step (start c) es).talk.dspSent := by
  have hinv := run_inv (P := fun k : Link => Talk.ToHost k.core.view k.talk)
    (fun k e h hg => by
      refine inv_step (fun v hv => ?_) (h.step hg.1.2 hg.2)
        fun _ => ⟨h.txde, h.sent, h.waits, h.masked, h.high, h.middle⟩
      have hb := hg.1.2
      rw [hv] at hb; cases hb)
    es (start c) (.start he.1 he.2.2.2 he.2.2.1) (along_and _ es hobey hchk)
  exact hinv.got_of_sent

/-- Two words, the second one written while the first one is being read. -/
theorem dsp_to_host_in_order_two :
    let es : List Ev :=
      [.writeMemory .X 0xffeb 0x123456, .readHost 5, .writeMemory .X 0xffeb 0x789abc,
      .readHost 6, .readHost 7, .readHost 5, .readHost 6, .readHost 7]
    (run step (start idle) es).talk.hostGot <+: (run step (start idle) es).talk.dspSent :=
  dsp_to_host_in_order idle empty_idle _ (by decide +kernel) (by decide +kernel)

/-- A high byte read before the word is there does not belong to it. -/
theorem dsp_to_host_torn_word :
    let es : List Ev := [.readHost 5, .writeMemory .X 0xffeb 0x123456, .readHost 6, .readHost 7]
    Along step DspToHost (start idle) es ∧
      (run step (start idle) es).talk.dspSent = [0x123456] ∧
      (run step (start idle) es).talk.hostGot = [0x003456] := by
  decide +kernel

end Link

end Aranym
