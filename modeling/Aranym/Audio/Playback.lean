/-
  Playback of the sound DMA (`audio_dma.cpp`).

  `audio_callback` fills a buffer of the host from the frame between `start` and `end`, which
  is started again in repeat mode.  A turn of its loop that converts nothing and ends no
  frame, or ends an empty one, is repeated forever.

  The numbers of the source have 32 bits.  `AudioDma.Fits` says when none of them overflows.
-/
import Aranym.Audio.Resampling
import Aranym.Lib.Run

namespace Aranym.Audio

/-! ## Conversion -/

namespace AudioConv

variable (c : AudioConv)

/-- The bytes of a sample of the source. -/
def sampleSize : ℕ := if c.wide then 2 else 1

/-- `rescaleFreq8` or `rescaleFreq16`, as the source format requires: the bytes written and read. -/
def rescaleFreq (source : ℕ → U8) (srcLen dstLen : ℕ) : ℕ × ℕ :=
  if c.wide then
    let r := c.rescaleFreq16 (fun i => source (2 * i) ++ source (2 * i + 1)) srcLen dstLen
    (r.1.length * 2, r.2)
  else
    let r := c.rescaleFreq8 source srcLen dstLen
    (r.1.length, r.2)

/-- What is left of `doConversion` without the samples: the buffer, the bytes read and the bytes
    written. -/
def doConversion (source : ℕ → U8) (srcLen : ℤ) (dstLen : ℕ) : AudioConv × ℤ × ℕ :=
  if c.srcRate = 0 ∨ c.dstRate = 0 then (c, srcLen, dstLen)
  else
    let neededBufSize := if c.srcRate > c.dstRate then dstLen * c.srcRate / c.dstRate else dstLen
    let tmpBufLen := max c.tmpBufLen neededBufSize
    let r := c.rescaleFreq source srcLen.toNat (min (dstLen * c.div / c.mul) tmpBufLen)
    -- `SDL_ConvertAudio`
    ({ c with tmpBufLen := tmpBufLen }, r.2, r.1 * c.mul / c.div)

end AudioConv

/-! ## The callback -/

/-- `AUDIODMA` and the variables of the callback.  `frameStart` and `frameEnd` are the registers
    `start` and `end`. -/
structure AudioDma where
  playing : Bool
  startReplay : ℤ
  currentReplay : ℤ
  endReplay : ℤ
  frameStart : ℤ
  frameEnd : ℤ
  control : U16
  conv : AudioConv
  deriving DecidableEq

variable (mem : ℤ → U8) (a : AudioDma) (c : AudioConv)

namespace AudioDma

/-- `CTRL_PLAYBACK_ENABLE`. -/
def enabled : Bool := a.control.getLsbD 0
/-- `CTRL_PLAYBACK_REPEAT`. -/
def repeats : Bool := a.control.getLsbD 1
/-- `CTRL_MFPI7_PLAYBACK_END`. -/
def mfpi7 : Bool := a.control.getLsbD 8
/-- `CTRL_TIMERA_PLAYBACK_END`. -/
def timerA : Bool := a.control.getLsbD 10

/-- Playback is started or stopped with its bit. -/
def updateControl : AudioDma :=
  if a.enabled then
    if a.playing then a
    else
      { a with
        startReplay := a.frameStart, currentReplay := a.frameStart, endReplay := a.frameEnd
        playing := true }
  else { a with playing := false }

end AudioDma

/-- The variables of the loop; `ended` says that a frame has come to its end. -/
structure Loop where
  dma : AudioDma
  destLen : ℤ
  trigger : Bool
  ended : Bool
  deriving DecidableEq

/-- The test for an interrupt in the loop. -/
def Loop.announce (s : Loop) : Loop :=
  { s with trigger := s.trigger || s.dma.timerA || s.dma.mfpi7 }

/-- The frame is started again. -/
def Loop.restart (s : Loop) : Loop :=
  { s with dma := { s.dma with
      startReplay := s.dma.frameStart, currentReplay := s.dma.frameStart
      endReplay := s.dma.frameEnd } }

/-- Playback is stopped. -/
def Loop.stop (s : Loop) : Loop :=
  { s with dma := { s.dma with control := s.dma.control &&& ~~~1, playing := false } }

/-- The end of a frame, and whether the loop is left. -/
def Loop.endFrame (s : Loop) : Loop × Bool :=
  let s := { s with ended := true }
  if s.dma.enabled then
    if s.dma.repeats then (s.restart.announce, false) else (s.stop, true)
  else (s.announce, false)

/-- The conversion in a turn of the loop. -/
def Loop.convert (s : Loop) : Loop :=
  let r := s.dma.conv.doConversion (fun i => mem (s.dma.currentReplay + i))
    (s.dma.endReplay - s.dma.currentReplay)
    s.destLen.toNat
  { s with
    dma := { s.dma with conv := r.1, currentReplay := s.dma.currentReplay + r.2.1 }
    destLen := s.destLen - r.2.2 }

/-- A turn of the loop, and whether the loop is left. -/
def Loop.turn (s : Loop) : Loop × Bool :=
  let s := s.convert mem
  if s.dma.currentReplay < s.dma.endReplay then (s, false) else s.endFrame

/-- The loop; nothing if it has not ended after so many turns. -/
def callbackLoop (mem : ℤ → U8) : ℕ → Loop → Option Loop
  | 0, _ => none
  | turns + 1, s =>
    if s.destLen ≤ 0 then some s
    else if (s.turn mem).2 then some (s.turn mem).1
    else callbackLoop mem turns (s.turn mem).1

/-- The interrupts that are requested after the loop. -/
def Loop.irqs (s : Loop) : List ℕ :=
  if s.trigger then if s.dma.timerA then [13] else if s.dma.mfpi7 then [15] else [] else []

/-- The callback has nothing to do. -/
def AudioDma.Idle (a : AudioDma) : Prop := a.playing = false ∨ a.startReplay = 0 ∨ a.endReplay = 0
deriving Decidable

/-- `audio_callback`: the variables at its end and the interrupts. -/
def audioCallback (turns : ℕ) (a : AudioDma) (len : ℤ) : Option (Loop × List ℕ) :=
  if a.Idle then some (⟨a, len, false, false⟩, [])
  else (callbackLoop mem turns ⟨a, len, false, false⟩).map fun s => (s, s.irqs)

/-- What happens to the sound DMA.  A callback is given enough turns, or hangs. -/
inductive Op where
  | control (value : U16)
  | frame (frameStart frameEnd : ℤ)
  | mode (conv : AudioConv)
  | callback (turns : ℕ) (len : ℤ)

/-- One operation, and the interrupts that it requests. -/
def AudioDma.step : Op → AudioDma × List ℕ
  | .control value => ({ a with control := value }.updateControl, [])
  | .frame frameStart frameEnd => ({ a with frameStart := frameStart, frameEnd := frameEnd }, [])
  | .mode conv => ({ a with conv := conv }, [])
  | .callback turns len =>
    match audioCallback mem turns a len with
    | some (s, irqs) => (s.dma, irqs)
    | none => (a, [])

/-- `reset`, with the conversion that is set. -/
def AudioDma.reset (conv : AudioConv) : AudioDma := ⟨false, 0, 0, 0, 0, 0, 0, conv⟩

/-! ## Interrupts at the end of a frame -/

/-- In repeat mode the end of a frame is noted if one of the interrupts is enabled, otherwise
    never. -/
structure Loop.Noted (a : AudioDma) (s : Loop) : Prop where
  repeats : s.dma.repeats = a.repeats
  timerA : s.dma.timerA = a.timerA
  mfpi7 : s.dma.mfpi7 = a.mfpi7
  trigger : s.trigger = (s.ended && a.repeats && (a.timerA || a.mfpi7))
  sound : s.dma.playing = true → s.dma.enabled = true

variable {s : Loop}

theorem Loop.endFrame_cases (he : s.dma.enabled) :
    (s.dma.repeats = true ∧ s.endFrame = ({ s with ended := true }.restart.announce, false)) ∨
      (s.dma.repeats = false ∧ s.endFrame = ({ s with ended := true }.stop, true)) := by
  unfold Loop.endFrame
  rw [if_pos he]
  cases hr : s.dma.repeats with
  | true => exact .inl ⟨rfl, if_pos rfl⟩
  | false => exact .inr ⟨rfl, if_neg Bool.false_ne_true⟩

variable {a : AudioDma} {mem : ℤ → U8}

theorem Loop.Noted.turn (h : s.Noted a) (mem : ℤ → U8) (he : s.dma.enabled) :
    (s.turn mem).1.Noted a ∧ ((s.turn mem).2 = false → (s.turn mem).1.dma.enabled = true) := by
  have h' : (s.convert mem).Noted a := ⟨h.repeats, h.timerA, h.mfpi7, h.trigger, h.sound⟩
  have he' : (s.convert mem).dma.enabled = true := he
  unfold Loop.turn
  generalize s.convert mem = s at h' he' ⊢
  obtain ⟨h1, h2, h3, h4, h5⟩ := h'
  dsimp only
  split_ifs
  · exact ⟨⟨h1, h2, h3, h4, h5⟩, fun _ => he'⟩
  rcases Loop.endFrame_cases he' with ⟨hr, heq⟩ | ⟨hr, heq⟩ <;> rw [heq] <;> rw [hr] at h1
  · refine ⟨⟨hr.trans h1, h2, h3, ?_, h5⟩, fun _ => he'⟩
    change (s.trigger || s.dma.timerA || s.dma.mfpi7) = _
    rw [h2, h3, h4, ← h1]
    cases s.ended <;> cases a.timerA <;> cases a.mfpi7 <;> rfl
  · have hbit : ∀ n, (~~~(1 : U16)).getLsbD n = true →
        (s.dma.control &&& ~~~1).getLsbD n = s.dma.control.getLsbD n := by
      intro n hn
      rw [BitVec.getLsbD_and, hn, Bool.and_true]
    refine ⟨⟨(hbit 1 (by decide)).trans (hr.trans h1), (hbit 10 (by decide)).trans h2,
      (hbit 8 (by decide)).trans h3, ?_, fun h => Bool.noConfusion h⟩, fun h => Bool.noConfusion h⟩
    rw [h4, ← h1]
    cases s.ended <;> rfl

theorem Loop.Noted.callbackLoop (turns : ℕ) {s' : Loop} (h : s.Noted a)
    (he : s.dma.enabled) (hs : callbackLoop mem turns s = some s') : s'.Noted a := by
  induction turns generalizing s with
  | zero => cases hs
  | succ turns ih =>
    rw [Audio.callbackLoop] at hs
    obtain ⟨hnoted, hgoes⟩ := h.turn mem he
    split_ifs at hs with hdone hleft
    · exact Option.some.inj hs ▸ h
    · exact Option.some.inj hs ▸ hnoted
    · exact ih hnoted (hgoes (Bool.of_not_eq_true hleft)) hs

theorem noted_audioCallback {turns : ℕ} {len : ℤ} {irqs : List ℕ}
    (he : a.playing = true → a.enabled = true)
    (hs : audioCallback mem turns a len = some (s, irqs)) :
    s.Noted a ∧ (s.ended = true → irqs = s.irqs) := by
  have hstart : Loop.Noted a ⟨a, len, false, false⟩ := ⟨rfl, rfl, rfl, rfl, he⟩
  unfold audioCallback at hs
  split_ifs at hs with hidle
  · obtain ⟨rfl, -⟩ := Prod.ext_iff.1 (Option.some.inj hs)
    exact ⟨hstart, fun h => Bool.noConfusion h⟩
  · obtain ⟨s', hloop, heq⟩ := Option.map_eq_some_iff.1 hs
    obtain ⟨rfl, rfl⟩ := Prod.ext_iff.1 heq
    have hplaying : a.playing = true := Bool.of_not_eq_false fun h => hidle (.inl h)
    exact ⟨hstart.callbackLoop turns (he hplaying) hloop, fun _ => rfl⟩

/-- The state reached from a reset. -/
def reached (mem : ℤ → U8) (conv : AudioConv) (ops : List Op) : AudioDma :=
  Lib.run (AudioDma.step mem) (.reset conv) ops

variable (mem : ℤ → U8)

theorem enabled_of_playing (conv : AudioConv) (ops : List Op) :
    (reached mem conv ops).playing = true → (reached mem conv ops).enabled = true := by
  refine Lib.run_inv_all (P := fun a : AudioDma => a.playing = true →
    a.enabled = true) (fun a op h => ?_) ops _
    fun h => Bool.noConfusion h
  cases op with
  | control value =>
    simp only [AudioDma.step, AudioDma.updateControl]
    split_ifs with h1 h2
    · exact fun _ => h1
    · exact fun _ => h1
    · exact fun h => h.elim
  | frame frameStart frameEnd => exact h
  | mode conv => exact h
  | callback turns len =>
    simp only [AudioDma.step]
    split
    next s irqs heq => exact (noted_audioCallback h heq).1.sound
    next => exact h

/-- The enabled interrupts are requested. -/
def Announced (a : AudioDma) (irqs : List ℕ) : Prop :=
  (a.timerA = true → 13 ∈ irqs) ∧ (a.mfpi7 = true → 15 ∈ irqs)

/-- None of the interrupts is enabled, or playback repeats and one is. -/
def AudioDma.Announceable (a : AudioDma) : Prop :=
  a.timerA = false ∧ a.mfpi7 = false ∨ a.repeats = true ∧ ¬ (a.timerA = true ∧ a.mfpi7 = true)

/-- **The end of a frame.**  In every state reached from a reset, if a frame ends in a callback, the
    enabled interrupts are requested before it returns exactly if none is enabled, or playback
    repeats and only one is enabled. -/
theorem end_announced_iff (mem : ℤ → U8) (conv : AudioConv) (ops : List Op) (turns : ℕ) (len : ℤ)
    (s : Loop) (irqs : List ℕ)
    (hs : audioCallback mem turns (reached mem conv ops) len = some (s, irqs))
    (hend : s.ended = true) :
    Announced (reached mem conv ops) irqs ↔ (reached mem conv ops).Announceable := by
  have hplaying := enabled_of_playing mem conv ops
  generalize reached mem conv ops = a at hs hplaying ⊢
  obtain ⟨⟨-, h2, h3, h4, -⟩, hirqs⟩ := noted_audioCallback hplaying hs
  rw [hirqs hend]
  unfold Announced AudioDma.Announceable Loop.irqs
  rw [h2, h3, h4, hend]
  cases a.repeats <;> cases a.timerA <;> cases a.mfpi7 <;> decide

/-- The frame from 0x1000 to 0x1002 is played with the given control register. -/
def playTwo (control : U16) : AudioDma :=
  reached (fun _ => 0) plainConv [.frame 0x1000 0x1002, .control control]

/-- In repeat mode Timer A is requested. -/
theorem end_announced_repeat : Announced (playTwo 0x403) [13] ↔ (playTwo 0x403).Announceable :=
  end_announced_iff (fun _ => 0) plainConv [.frame 0x1000 0x1002, .control 0x403] 5 8
    ⟨{ playTwo 0x403 with currentReplay := 0x1001, conv := { plainConv with tmpBufLen := 8 } }, 0,
      true, true⟩ [13]
    (by decide +kernel) rfl

/-- In single-shot mode no interrupt is requested, and with both enabled only one. -/
theorem end_not_announced :
    (audioCallback (fun _ => 0) 5 (playTwo 0x401) 8).map (fun r => (r.1.ended, r.2)) =
      some (true, []) ∧
    (audioCallback (fun _ => 0) 5 (playTwo 0x503) 8).map (fun r => (r.1.ended, r.2)) =
      some (true, [13]) ∧
    ¬ Announced (playTwo 0x401) [] ∧ ¬ Announced (playTwo 0x503) [13] := by
  refine ⟨by decide +kernel, by decide +kernel, fun h => ?_, fun h => ?_⟩
  · exact absurd (h.1 (by decide +kernel)) (by decide)
  · exact absurd (h.2 (by decide +kernel)) (by decide)

/-! ## The end of the loop -/

theorem Rescaling.count_pos (r : Rescaling) {srcLen dstLen : ℕ} (hchan : 0 < r.chan)
    (hs : 0 < srcLen) (hd : 0 < dstLen) : 0 < r.count srcLen dstLen := by
  rw [Nat.pos_iff_ne_zero, ne_eq, r.count_eq_zero_iff srcLen dstLen hchan]
  omega

/-- The bytes of a frame of the source. -/
def AudioConv.frameSize (c : AudioConv) : ℕ := c.srcChan * c.sampleSize

/-- `SDL` makes a frame of the host, of `host` bytes, of a frame of the source. -/
structure AudioConv.Makes (c : AudioConv) (host : ℕ) : Prop where
  chan : 0 < c.srcChan
  srcRate : c.srcRate ≠ 0
  dstRate : c.dstRate ≠ 0
  mul : 0 < c.mul
  div : 0 < c.div
  host_pos : 0 < host
  ratio : c.frameSize * c.mul = host * c.div

/-- The loops write whole frames, one at least if there is a sample to read and room for a frame;
    without a sample they do nothing. -/
theorem AudioConv.rescaleFreq_spec {c : AudioConv} (hchan : 0 < c.srcChan) (source : ℕ → U8)
    (srcLen dstLen : ℕ) : ∃ n, (c.rescaleFreq source srcLen dstLen).1 = n * c.frameSize ∧
      (c.wide = true → 2 ∣ (c.rescaleFreq source srcLen dstLen).2) ∧
      (srcLen < c.sampleSize → c.rescaleFreq source srcLen dstLen = (0, 0)) ∧
      (c.sampleSize ≤ srcLen → c.frameSize ≤ dstLen → 0 < n) := by
  have hempty : ∀ {α : Type} (r : Rescaling) (s : ℕ → α) (d : ℕ), 0 < r.chan →
      r.rescale s 0 d = ([], 0) := by
    intro α r s d hr
    rw [r.rescale_eq, (r.count_eq_zero_iff 0 d hr).2 (.inl rfl)]
    rfl
  unfold AudioConv.rescaleFreq AudioConv.frameSize AudioConv.sampleSize
  cases c.wide with
  | true =>
    simp only [if_true, AudioConv.rescaleFreq16, Rescaling.length_rescale]
    refine ⟨_, Nat.mul_assoc _ _ _, fun _ => Nat.dvd_mul_left 2 _, fun hs => ?_, fun hs hd => ?_⟩
    · rw [← Rescaling.length_rescale, Nat.div_eq_of_lt hs, hempty _ _ _ hchan]
      rfl
    · exact c.rescaling16.count_pos hchan (by omega) (by omega)
  | false =>
    simp only [Bool.false_eq_true, if_false, AudioConv.rescaleFreq8,
      Rescaling.length_rescale, Nat.mul_one]
    refine ⟨_, rfl, fun h => h.elim, fun hs => ?_, fun hs hd => ?_⟩
    · rw [← Rescaling.length_rescale, Nat.lt_one_iff.1 hs, hempty _ _ _ hchan]
      rfl
    · exact c.rescaling8.count_pos hchan (by omega) (hchan.trans_le hd)

/-- Without a sample to read a conversion does nothing but enlarge the buffer. -/
theorem AudioConv.doConversion_empty {c : AudioConv} (hchan : 0 < c.srcChan) (hsrc : c.srcRate ≠ 0)
    (hdst : c.dstRate ≠ 0)
    (source : ℕ → U8) {srcLen : ℤ} (hs : srcLen < c.sampleSize) (dstLen : ℕ) :
    ∃ tmp, c.doConversion source srcLen dstLen = ({ c with tmpBufLen := tmp }, 0, 0) := by
  unfold AudioConv.doConversion
  rw [if_neg (not_or.2 ⟨hsrc, hdst⟩)]
  dsimp only
  generalize max c.tmpBufLen _ = tmp
  have hsize : 0 < c.sampleSize := by unfold AudioConv.sampleSize; split_ifs <;> decide
  obtain ⟨n, -, -, hnone, -⟩ :=
    AudioConv.rescaleFreq_spec hchan source srcLen.toNat (min (dstLen * c.div / c.mul) tmp)
  rw [hnone (by omega), Nat.zero_mul, Nat.zero_div]
  exact ⟨tmp, rfl⟩

variable {host : ℕ}

/-- **A conversion** writes whole frames of the host, one at least if there is a sample to read and
    room for a frame. -/
theorem AudioConv.Makes.doConversion {c : AudioConv} (h : c.Makes host) (source : ℕ → U8)
    (srcLen : ℤ) (q : ℕ) :
    ∃ tmp n read : ℕ, c.doConversion source srcLen (host * q) =
      ({ c with tmpBufLen := tmp }, (read : ℤ), host * n) ∧
      max c.tmpBufLen (host * q) ≤ tmp ∧ (c.wide = true → 2 ∣ read) ∧
      (0 < q → c.frameSize ≤ tmp → c.sampleSize ≤ srcLen → 0 < n) := by
  obtain ⟨hchan, hsrc, hdst, hmul, hdiv, -, hratio⟩ := h
  have hroom : host * q * c.div / c.mul = c.frameSize * q := by
    rw [Nat.mul_right_comm, ← hratio, Nat.mul_right_comm, Nat.mul_div_cancel _ hmul]
  have hback : ∀ n, n * c.frameSize * c.mul / c.div = host * n := by
    intro n
    rw [Nat.mul_assoc, hratio, ← Nat.mul_assoc, Nat.mul_div_cancel _ hdiv, Nat.mul_comm]
  have hneed : host * q ≤ if c.srcRate > c.dstRate then host * q * c.srcRate / c.dstRate
      else host * q := by
    split_ifs with hgt
    · exact (Nat.le_div_iff_mul_le (Nat.pos_of_ne_zero hdst)).2 (Nat.mul_le_mul_left _ hgt.le)
    · exact le_rfl
  unfold AudioConv.doConversion
  rw [if_neg (not_or.2 ⟨hsrc, hdst⟩), hroom]
  dsimp only
  generalize (if c.srcRate > c.dstRate then host * q * c.srcRate / c.dstRate else host * q) =
    need at hneed ⊢
  obtain ⟨n, hn, heven, -, hsome⟩ :=
    AudioConv.rescaleFreq_spec hchan source srcLen.toNat
      (min (c.frameSize * q) (max c.tmpBufLen need))
  refine ⟨_, n, _, by rw [hn, hback], max_le_max le_rfl hneed, heven, fun hq htmp hs => ?_⟩
  exact hsome (by omega) (le_min (Nat.le_mul_of_pos_right _ hq) htmp)

/-- The loop can go on: what is played again is not empty, and in 16 bits no byte is left over. -/
structure Loop.Ready (host : ℕ) (s : Loop) : Prop where
  enabled : s.dma.enabled = true
  makes : s.dma.conv.Makes host
  dest : ∃ q : ℤ, s.destLen = host * q
  room : s.dma.conv.frameSize ≤ max s.dma.conv.tmpBufLen s.destLen.toNat
  even : s.dma.conv.wide = true → 2 ∣ s.dma.endReplay - s.dma.currentReplay
  again : s.dma.repeats = true →
    s.dma.frameStart < s.dma.frameEnd ∧
      (s.dma.conv.wide = true → 2 ∣ s.dma.frameEnd - s.dma.frameStart)

theorem Loop.Ready.convert (h : s.Ready host) (mem : ℤ → U8) (hd : 0 < s.destLen) :
    (s.convert mem).Ready host ∧ (s.convert mem).destLen ≤ s.destLen ∧
      (s.dma.currentReplay < s.dma.endReplay → (s.convert mem).destLen < s.destLen) ∧
      s.dma.currentReplay ≤ (s.convert mem).dma.currentReplay := by
  obtain ⟨he, hm, ⟨q, hq⟩, hroom, heven, hagain⟩ := h
  have hhost := hm.host_pos
  obtain ⟨q, rfl⟩ : ∃ n : ℕ, q = n := Int.eq_ofNat_of_zero_le (by
    rw [hq] at hd
    exact (Int.pos_of_mul_pos_right hd (by omega)).le)
  have hdest : s.destLen.toNat = host * q := by rw [hq, ← Nat.cast_mul, Int.toNat_natCast]
  obtain ⟨tmp, n, read, hconv, htmp, hread, hsome⟩ :=
    hm.doConversion (fun i => mem (s.dma.currentReplay + i))
      (s.dma.endReplay - s.dma.currentReplay) q
  have heq : s.convert mem = { s with
      dma := { s.dma with
        conv := { s.dma.conv with tmpBufLen := tmp }, currentReplay := s.dma.currentReplay + read }
      destLen := s.destLen - (host * n : ℕ) } := by
    rw [Loop.convert, hdest, hconv]
  have hframe : s.dma.conv.frameSize ≤ tmp := by
    rw [hdest] at hroom
    exact hroom.trans htmp
  rw [heq]
  refine ⟨⟨he, ⟨hm.chan, hm.srcRate, hm.dstRate, hm.mul, hm.div, hm.host_pos, hm.ratio⟩,
    ⟨q - n, ?_⟩, ?_, ?_, hagain⟩, ?_, fun hlt => ?_, ?_⟩
  · change s.destLen - _ = _
    rw [hq, Nat.cast_mul, mul_sub]
  · exact hframe.trans (le_max_left _ _)
  · intro hw
    have h1 := heven hw
    have h2 := hread hw
    change 2 ∣ s.dma.endReplay - (s.dma.currentReplay + read)
    omega
  · change s.destLen - _ ≤ _
    omega
  · have hq0 : 0 < q := Nat.pos_of_ne_zero fun h0 => by rw [hq, h0] at hd; simp at hd
    have hsize : (s.dma.conv.sampleSize : ℤ) ≤ s.dma.endReplay - s.dma.currentReplay := by
      unfold AudioConv.sampleSize
      split_ifs with hw
      · have := heven hw
        omega
      · omega
    have hn := Nat.mul_pos hhost (hsome hq0 hframe hsize)
    change s.destLen - _ < _
    omega
  · exact Int.le_add_of_nonneg_right (Int.natCast_nonneg read)

/-- A turn either writes something, or ends a frame that was over, and the next one has a new
    frame. -/
def Loop.left (s : Loop) : ℕ :=
  2 * s.destLen.toNat + if s.dma.currentReplay < s.dma.endReplay then 0 else 1

theorem Loop.Ready.turn (h : s.Ready host) (mem : ℤ → U8) (hd : 0 < s.destLen)
    (hgo : (s.turn mem).2 = false) : (s.turn mem).1.Ready host ∧ (s.turn mem).1.left < s.left := by
  obtain ⟨hc, hle, hlt, hcur⟩ := h.convert mem hd
  have hend : (s.convert mem).dma.endReplay = s.dma.endReplay := rfl
  unfold Loop.turn at hgo ⊢
  generalize s.convert mem = t at hc hle hlt hcur hend hgo ⊢
  by_cases hin : t.dma.currentReplay < t.dma.endReplay
  · rw [if_pos hin]
    refine ⟨hc, ?_⟩
    change 2 * t.destLen.toNat + _ < _
    unfold Loop.left
    rw [if_pos hin, if_pos (by omega)]
    omega
  rw [if_neg hin] at hgo ⊢
  rcases Loop.endFrame_cases hc.enabled with ⟨hr, heq⟩ | ⟨-, heq⟩ <;> rw [heq] at hgo ⊢
  · obtain ⟨hnonempty, heven⟩ := hc.again hr
    refine ⟨⟨hc.enabled, hc.makes, hc.dest, hc.room, heven, hc.again⟩, ?_⟩
    change 2 * t.destLen.toNat + (if t.dma.frameStart < t.dma.frameEnd then 0 else 1) < s.left
    unfold Loop.left
    split_ifs with hs
    · have := hlt hs
      omega
    · omega
  · exact Bool.noConfusion hgo

theorem callbackLoop_ends (m : ℕ) (h : s.Ready host) (hm : s.left ≤ m) :
    ∃ turns, (callbackLoop mem turns s).isSome := by
  induction m generalizing s with
  | zero =>
    refine ⟨1, ?_⟩
    rw [callbackLoop, if_pos (by unfold Loop.left at hm; omega)]
    rfl
  | succ m ih =>
    by_cases hd : s.destLen ≤ 0
    · exact ⟨1, by rw [callbackLoop, if_pos hd]; rfl⟩
    cases hgo : (s.turn mem).2 with
    | true => exact ⟨1, by rw [callbackLoop, if_neg hd, if_pos hgo]; rfl⟩
    | false =>
      obtain ⟨hready, hless⟩ := h.turn mem (by omega) hgo
      obtain ⟨turns, hturns⟩ := ih hready (by omega)
      exact ⟨turns + 1, by rw [callbackLoop, if_neg hd, hgo,
        if_neg Bool.false_ne_true]; exact hturns⟩

/-- Without a rate a conversion takes all of the buffer and of the frame. -/
theorem callbackLoop_ends_silent (h : s.dma.conv.srcRate = 0 ∨ s.dma.conv.dstRate = 0) :
    (callbackLoop mem 2 s).isSome := by
  rw [callbackLoop]
  split_ifs with hd hleft
  · rfl
  · rfl
  · have hdest : (s.turn mem).1.destLen = s.destLen - s.destLen.toNat := by
      unfold Loop.turn Loop.convert AudioConv.doConversion Loop.endFrame
      dsimp only
      split_ifs <;> rfl
    rw [callbackLoop, if_pos (by omega)]
    rfl

/-- A turn of the loop comes to nothing: in 16 bits a single byte is left over, or the frame is over
    and an empty one is played again. -/
structure Loop.Stuck (s : Loop) : Prop where
  dest : 0 < s.destLen
  chan : 0 < s.dma.conv.srcChan
  srcRate : s.dma.conv.srcRate ≠ 0
  dstRate : s.dma.conv.dstRate ≠ 0
  atEnd : (s.dma.conv.wide = true ∧ s.dma.endReplay - s.dma.currentReplay = 1) ∨
    (s.dma.enabled = true ∧ s.dma.repeats = true ∧ s.dma.frameEnd ≤ s.dma.frameStart ∧
      s.dma.endReplay ≤ s.dma.currentReplay)

theorem Loop.Stuck.turn (h : s.Stuck) (mem : ℤ → U8) :
    (s.turn mem).2 = false ∧ (s.turn mem).1.Stuck := by
  have hempty : s.dma.endReplay - s.dma.currentReplay < s.dma.conv.sampleSize := by
    unfold AudioConv.sampleSize
    rcases h.atEnd with ⟨hw, hone⟩ | ⟨-, -, -, hover⟩
    · rw [if_pos hw, hone]
      decide
    · split_ifs <;> omega
  obtain ⟨tmp, hconv⟩ := AudioConv.doConversion_empty h.chan h.srcRate h.dstRate
    (fun i => mem (s.dma.currentReplay + i)) hempty s.destLen.toNat
  have hc : s.convert mem =
      { s with dma := { s.dma with conv := { s.dma.conv with tmpBufLen := tmp } } } := by
    rw [Loop.convert, hconv]
    simp only [add_zero, Nat.cast_zero, sub_zero]
  have hover := h.atEnd
  unfold Loop.turn
  rw [hc]
  by_cases hin : s.dma.currentReplay < s.dma.endReplay
  · rw [if_pos hin]
    exact ⟨rfl, ⟨h.dest, h.chan, h.srcRate, h.dstRate, hover⟩⟩
  · obtain ⟨he, hr, hframe, -⟩ := hover.resolve_left fun hone => hin (by omega)
    rw [if_neg hin]
    rcases Loop.endFrame_cases
      (s := { s with dma := { s.dma with conv := { s.dma.conv with tmpBufLen := tmp } } }) he
      with ⟨-, heq⟩ | ⟨hno, -⟩
    · rw [heq]
      exact ⟨rfl, ⟨h.dest, h.chan, h.srcRate, h.dstRate, .inr ⟨he, hr, hframe, hframe⟩⟩⟩
    · exact absurd (hr.symm.trans hno) (by decide)

theorem Loop.Stuck.hangs (h : s.Stuck) (mem : ℤ → U8) (turns : ℕ) :
    callbackLoop mem turns s = none := by
  induction turns generalizing s with
  | zero => rfl
  | succ turns ih =>
    obtain ⟨hgo, hstuck⟩ := h.turn mem
    rw [callbackLoop, if_neg (not_le.2 h.dest), hgo, if_neg Bool.false_ne_true]
    exact ih hstuck

/-- No number of a callback for `len` bytes, in frames of `host` bytes, overflows. -/
structure AudioDma.Fits (a : AudioDma) (host len : ℕ) : Prop where
  /-- the address registers have 24 bits -/
  addresses : ∀ x ∈ [a.currentReplay, a.endReplay, a.frameStart, a.frameEnd], 0 ≤ x ∧ x < 2 ^ 24
  neededBufSize : a.conv.dstRate < a.conv.srcRate → len * a.conv.srcRate < 2 ^ 31
  bytes : len / host * a.conv.frameSize < 2 ^ 30
  product : len / host * a.conv.srcRate < 2 ^ 31
  position : len / host * a.conv.srcRate / a.conv.dstRate * a.conv.srcSkip +
    a.conv.srcOffset < 2 ^ 30

/-- A frame from `start` to `end` that is played in repeat mode. -/
def repeating (frameStart frameEnd : ℤ) : AudioDma :=
  ⟨true, frameStart, frameStart, frameEnd, frameStart, frameEnd, 3, plainConv⟩

end Aranym.Audio
