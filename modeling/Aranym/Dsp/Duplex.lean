/-
  The two directions of the host port side by side.

  The port keeps `HRX` and `HTX` in one word and the receive and transmit bytes
  in the same three bytes, so traffic in one direction can overwrite data of
  the other.  The reference is a port with separate registers, a pair of lanes
  that share nothing.
-/
import Aranym.Dsp.Link

namespace Aranym

open Lib DspCore

/-! ## Separate lanes -/

/-- The direction to the CPU with registers of its own. -/
structure HostLane where
  rxdf : Bool
  htde : Bool
  h : U8
  m : U8
  l : U8
  htx : U32
  rxH : U8
  rxM : U8
  hostGot : List U32

namespace HostLane

/-- The word in `HTX` goes to the receive registers if these are empty. -/
def dsp2host (a : HostLane) : HostLane :=
  if a.rxdf then a else if a.htde then a
  else { a with h := (a.htx >>> 16).setWidth 8, m := (a.htx >>> 8).setWidth 8
                l := a.htx.setWidth 8, htde := true, rxdf := true }

/-- An access of this direction; those of the other one do nothing. -/
def step (a : HostLane) : Act → HostLane × Unit
  | .rxh => ({ a with rxH := a.h }, ())
  | .rxm => ({ a with rxM := a.m }, ())
  | .rxl => ({ a with rxdf := false, hostGot := a.hostGot ++ [word a.rxH a.rxM a.l] }.dsp2host, ())
  | .htx v => ({ a with htx := v &&& mask24, htde := false }.dsp2host, ())
  | _ => (a, ())

/-- The lane at the start of a link. -/
def start : HostLane := ⟨false, true, 0, 0, 0, 0, 0, 0, []⟩

end HostLane

/-- The direction to the DSP with registers of its own. -/
structure DspLane where
  txde : Bool
  hrdf : Bool
  h : U8
  m : U8
  l : U8
  hrx : U32
  dspGot : List U32

namespace DspLane

/-- The word in the transmit registers goes to `HRX` if that is empty. -/
def host2dsp (b : DspLane) : DspLane :=
  if b.txde then b else if b.hrdf then b
  else { b with hrx := word b.h b.m b.l, hrdf := true, txde := true }

/-- An access of this direction; those of the other one do nothing. -/
def step (b : DspLane) : Act → DspLane × Unit
  | .txh v => ({ b with h := v }, ())
  | .txm v => ({ b with m := v }, ())
  | .txl v => ({ b with l := v, txde := false }.host2dsp, ())
  | .hrx =>
    let b := { b with hrdf := false }.host2dsp
    ({ b with dspGot := b.dspGot ++ [b.hrx &&& mask24] }, ())
  | _ => (b, ())

/-- The lane at the start of a link. -/
def start : DspLane := ⟨true, false, 0, 0, 0, 0, []⟩

end DspLane

/-- The accesses of the direction to the CPU. -/
def Act.toHost : Act → Bool
  | .rxh | .rxm | .rxl | .htx _ => true
  | _ => false

/-- The accesses of the direction to the DSP. -/
def Act.toDsp : Act → Bool
  | .txh _ | .txm _ | .txl _ | .hrx => true
  | _ => false

theorem HostLane.step_other (a : HostLane) {x : Act} (h : x.toHost = false) : (a.step x).1 = a := by
  cases x <;> first | rfl | cases h

theorem DspLane.step_other (b : DspLane) {x : Act} (h : x.toDsp = false) : (b.step x).1 = b := by
  cases x <;> first | rfl | cases h

/-! ## The port agrees with the lanes -/

/-- The port and the lanes have the same flags and deliver the same words, and what is in use of the
    shared registers is what the lane that uses it holds. -/
structure Rel (p : Port) (t : Talk) (a : HostLane) (b : DspLane) : Prop where
  rxdf : p.rxdf = a.rxdf
  htde : p.htde = a.htde
  txde : p.txde = b.txde
  hrdf : p.hrdf = b.hrdf
  hostGot : t.hostGot = a.hostGot
  dspGot : t.dspGot = b.dspGot
  /-- a word for the CPU occupies the bytes -/
  full : p.rxdf = true →
    p.h = a.h ∧ p.m = a.m ∧ p.l = a.l ∧ p.txde = true ∧ t.txPhase = 0
  /-- a word for the CPU waits in the DSP's register -/
  outgoing : p.htde = false → p.data = a.htx ∧ p.rxdf = true ∧ p.hrdf = false
  /-- a word for the DSP waits in the bytes -/
  incoming : p.txde = false → p.h = b.h ∧ p.m = b.m ∧ p.l = b.l ∧ p.hrdf = true
  /-- a word for the DSP occupies its register -/
  received : p.hrdf = true → p.data = b.hrx
  txHigh : 1 ≤ t.txPhase → p.h = b.h
  txMiddle : 2 ≤ t.txPhase → p.m = b.m
  rxHigh : 1 ≤ t.rxPhase → t.rxH = a.rxH
  rxMiddle : 2 ≤ t.rxPhase → t.rxM = a.rxM

namespace Talk

/-- Both sides obey the flags, and the CPU writes and reads the bytes in order. -/
def obeys (t : Talk) (p : Port) : Act → Bool
  | .txh _ => t.txPhase = 0
  | .txm _ => t.txPhase = 1
  | .txl _ => t.txPhase = 2 && p.txde
  | .rxh => t.rxPhase = 0
  | .rxm => t.rxPhase = 1
  | .rxl => t.rxPhase = 2 && p.rxdf
  | .hrx => p.hrdf
  | .htx _ => p.htde
  | .none => true

/-- The shared registers are free for the access: the CPU writes while no word for it is in the
    bytes, and reads them while one is; the DSP writes while it holds no word to read, and not
    into a word that the CPU is writing. -/
def apart (t : Talk) (p : Port) : Act → Bool
  | .txh _ | .txm _ | .txl _ => !p.rxdf
  | .rxh | .rxm => p.rxdf
  | .htx _ => !p.hrdf && (p.rxdf || t.txPhase = 0)
  | .rxl | .hrx | .none => true

end Talk

namespace Rel
variable {p : Port} {t : Talk} {a : HostLane} {b : DspLane}

theorem start (ht : p.txde) (hr : p.hrdf = false) (hd : p.htde) (hx : p.rxdf = false) :
    Rel p .start .start .start := by
  constructor <;> simp_all [Talk.start, HostLane.start, DspLane.start]

attribute [local simp] Port.step Port.host2dsp Port.dsp2host DspLane.step
  DspLane.host2dsp HostLane.step
  HostLane.dsp2host Talk.note

theorem txl (h : Rel p t a b) (h2 : t.txPhase = 2) (hx : p.rxdf = false) (v : U8) :
    Rel (p.step (.txl v)).1 (t.note 0 (.txl v)) a (b.step (.txl v)).1 := by
  -- no word for the CPU can be waiting in the DSP's register
  have hd : p.htde = true := by
    cases hd : p.htde with
    | true => rfl
    | false => rw [(h.outgoing hd).2.1] at hx; cases hx
  have hh := h.txHigh (by omega)
  have hm := h.txMiddle (by omega)
  obtain ⟨e1, e2, e3, e4, e5, e6, -, -, -, hrec, -, -, hrh, hrm⟩ := h
  cases hr : p.hrdf with
  | true =>
    constructor
    all_goals simp_all
  | false =>
    constructor
    all_goals simp_all

theorem rxl (h : Rel p t a b) (h2 : t.rxPhase = 2) (hx : p.rxdf) :
    Rel (p.step .rxl).1 (t.note (p.step .rxl).2 .rxl) (a.step .rxl).1 b := by
  obtain ⟨hh, hm, hl, htx, hph⟩ := h.full hx
  have hrh := h.rxHigh (by omega)
  have hrm := h.rxMiddle (by omega)
  obtain ⟨e1, e2, e3, e4, e5, e6, -, hout, -, hrec, -, -, -, -⟩ := h
  cases hd : p.htde with
  | true =>
    constructor
    all_goals simp_all
  | false =>
    constructor
    all_goals simp_all

theorem hrx (h : Rel p t a b) (hr : p.hrdf) :
    Rel (p.step .hrx).1 (t.note (p.step .hrx).2 .hrx) a (b.step .hrx).1 := by
  -- no word for the CPU can be waiting in the DSP's register
  have hd : p.htde = true := by
    cases hd : p.htde with
    | true => rfl
    | false => rw [(h.outgoing hd).2.2] at hr; cases hr
  have hdat := h.received hr
  obtain ⟨e1, e2, e3, e4, e5, e6, hfull, -, hin, -, hth, htm, hrh, hrm⟩ := h
  cases ht : p.txde with
  | true =>
    constructor
    all_goals simp_all
  | false =>
    constructor
    all_goals simp_all

theorem htx (h : Rel p t a b) (hr : p.hrdf = false) (hph : p.rxdf = true ∨ t.txPhase = 0)
    (v : U32) : Rel (p.step (.htx v)).1 (t.note 0 (.htx v)) (a.step (.htx v)).1 b := by
  -- no word for the DSP can be waiting in the bytes
  have ht : p.txde = true := by
    cases ht : p.txde with
    | true => rfl
    | false => rw [(h.incoming ht).2.2.2] at hr; cases hr
  obtain ⟨e1, e2, e3, e4, e5, e6, hfull, -, -, -, hth, htm, hrh, hrm⟩ := h
  cases hx : p.rxdf with
  | true =>
    constructor
    all_goals simp_all
  | false =>
    constructor
    all_goals simp_all

theorem step (h : Rel p t a b) : ∀ {x : Act}, t.obeys p x = true → t.apart p x = true →
    Rel (p.step x).1 (t.note (p.step x).2 x) (a.step x).1 (b.step x).1
  | .txh v, hg, hc => by
    have h0 : t.txPhase = 0 := by simpa [Talk.obeys] using hg
    have hx : p.rxdf = false := by simpa [Talk.apart] using hc
    obtain ⟨e1, e2, e3, e4, e5, e6, -, hout, hin, hrec, -, -, hrh, hrm⟩ := h
    constructor
    all_goals simp_all
  | .txm v, hg, hc => by
    have h1 : t.txPhase = 1 := by simpa [Talk.obeys] using hg
    have hx : p.rxdf = false := by simpa [Talk.apart] using hc
    have hh := h.txHigh (by omega)
    obtain ⟨e1, e2, e3, e4, e5, e6, -, hout, hin, hrec, -, -, hrh, hrm⟩ := h
    constructor
    all_goals simp_all
  | .txl v, hg, hc => by
    simp only [Talk.obeys, Bool.and_eq_true, decide_eq_true_eq] at hg
    exact h.txl hg.1 (by simpa [Talk.apart] using hc) v
  | .rxh, _, hc => by
    obtain ⟨hh, -⟩ := h.full hc
    refine ⟨h.rxdf, h.htde, h.txde, h.hrdf, h.hostGot, h.dspGot, h.full, h.outgoing, h.incoming,
      h.received, h.txHigh, h.txMiddle, fun _ => ?_, fun h2 => by simp [Talk.note] at h2⟩
    exact (byte_back _).trans hh
  | .rxm, hg, hc => by
    have h1 : t.rxPhase = 1 := by simpa [Talk.obeys] using hg
    obtain ⟨-, hm, -⟩ := h.full hc
    refine ⟨h.rxdf, h.htde, h.txde, h.hrdf, h.hostGot, h.dspGot, h.full, h.outgoing, h.incoming,
      h.received, h.txHigh, h.txMiddle, fun _ => h.rxHigh (by omega), fun _ => ?_⟩
    exact (byte_back _).trans hm
  | .rxl, hg, _ => by
    simp only [Talk.obeys, Bool.and_eq_true, decide_eq_true_eq] at hg
    exact h.rxl hg.1 hg.2
  | .hrx, hg, _ => h.hrx hg
  | .htx v, _, hc => by
    simp only [Talk.apart, Bool.and_eq_true, Bool.not_eq_true', Bool.or_eq_true,
      decide_eq_true_eq] at hc
    exact h.htx hc.1 hc.2 v
  | .none, _, _ => h

end Rel

/-! ## The directions are independent -/

namespace Link

/-- Both sides obey the flags, and the host receive and transmit interrupts, which clear `HRDF`
    before the DSP has read and `HTDE` after the CPU may have, are off. -/
def Obeys (k : Link) (e : Ev) : Prop :=
  (¬ k.core.TakesHostReceive e ∧ ¬ k.core.TakesHostTransmit e) ∧
    k.talk.obeys k.core.view e.act = true
deriving Decidable

/-- The access finds the shared registers free. -/
def Apart (k : Link) (e : Ev) : Prop := k.talk.apart k.core.view e.act = true
deriving Decidable

theorem rel_step {k : Link} {a : HostLane} {b : DspLane} {e : Ev} (hr : k.core.running)
    (h : Rel k.core.view k.talk a b) (hg : k.Obeys e ∧ k.Apart e) :
    Rel (k.step e).1.core.view (k.step e).1.talk (a.step e.act).1 (b.step e.act).1 :=
  inv_step (P := fun p t => Rel p t (a.step e.act).1 (b.step e.act).1) (fun _ _ => hr)
    (h.step hg.1.2 hg.2) fun ht => absurd ht hg.1.1.1

section Lanes
variable {c : DspCore} (hr : c.running) (he : c.Empty) {es : List Ev}
  (hobey : Along step Obeys (start c) es) (hap : Along step Apart (start c) es)
include hr he hobey hap

theorem hostGot_of_lane : (run step (start c) es).talk.hostGot =
    (run (fun a e => HostLane.step a (Ev.act e)) .start es).hostGot := by
  have hsim := run_sim (f := step) (g := fun a e => HostLane.step a (Ev.act e))
    (R := fun k a => k.core.running = true ∧ ∃ b, Rel k.core.view k.talk a b)
    (fun k a e ⟨hrun, b, h⟩ hg => ⟨running_step hrun e, (b.step e.act).1, rel_step hrun h hg⟩)
    es (start c) .start ⟨hr, .start, .start he.1 he.2.1 he.2.2.1 he.2.2.2⟩
      (along_and _ es hobey hap)
  obtain ⟨-, b, h⟩ := hsim
  exact h.hostGot

theorem dspGot_of_lane : (run step (start c) es).talk.dspGot =
    (run (fun b e => DspLane.step b (Ev.act e)) .start es).dspGot := by
  have hsim := run_sim (f := step) (g := fun b e => DspLane.step b (Ev.act e))
    (R := fun k b => k.core.running = true ∧ ∃ a, Rel k.core.view k.talk a b)
    (fun k b e ⟨hrun, a, h⟩ hg => ⟨running_step hrun e, (a.step e.act).1, rel_step hrun h hg⟩)
    es (start c) .start ⟨hr, .start, .start he.1 he.2.1 he.2.2.1 he.2.2.2⟩
      (along_and _ es hobey hap)
  obtain ⟨-, a, h⟩ := hsim
  exact h.dspGot

end Lanes

end Link

end Aranym
