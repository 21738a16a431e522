/-
  No interrupt of the MFP is lost, and what an acknowledge does
  (`doInterrupt_cases`).  Every operation keeps `NoLost` and `Sound`.
-/
import Aranym.Mfp.Model

namespace Aranym.Mfp

open Lib
open Bool (and_eq_true)
open BitVec hiding lt_of_getLsbD not_not

/-! ## Requests -/

/-- `IRQ` moves nothing but the pending request, the flag and Timer C. -/
structure Requested (m m' : Mfp) : Prop where
  enable : m'.irqEnable = m.irqEnable
  mask : m'.irqMask = m.irqMask
  inservice : m'.irqInservice = m.irqInservice
  vr : m'.vr = m.vr

/-- What `IRQ` does to the pending requests and the flag: nothing, or the enabled request becomes
    pending, and the flag is raised unless the request is masked or not above everything in
    service. -/
theorem irq_cases (m : Mfp) (level : ℕ) (count : ℤ) : Requested m (m.irq level count) ∧
    (((m.irq level count).irqPending = m.irqPending ∧
        (m.irq level count).spcflagMfp = m.spcflagMfp) ∨ m.irqEnable.getLsbD level = true ∧
      (m.irq level count).irqPending = m.irqPending ||| 1#16 <<< level ∧
      ((m.irq level count).spcflagMfp = true ∨ (m.irq level count).spcflagMfp = m.spcflagMfp ∧
        (m.irqMask.getLsbD level = false ∨ ¬ Above level m.irqInservice))) := by
  by_cases hen : m.irqEnable &&& 1#16 <<< level = 0
  · unfold irq
    by_cases h5 : level = 5 <;> simp only [h5, if_true, if_false] at hen ⊢ <;> rw [if_pos hen] <;>
      exact ⟨⟨rfl, rfl, rfl, rfl⟩, .inl ⟨rfl, rfl⟩⟩
  · have hlv : m.irqEnable.getLsbD level = true := by simpa [and_bit_eq_zero] using hen
    have hna : m.irqInservice > 1#16 <<< level → ¬ Above level m.irqInservice := by
      intro h; rw [above_iff_not_le (lt_of_getLsbD hlv), not_not]; exact BitVec.le_of_lt h
    have hmk : m.irqMask &&& 1#16 <<< level = 0 → m.irqMask.getLsbD level = false :=
      and_bit_eq_zero.1
    unfold irq
    by_cases h5 : level = 5
    all_goals
      simp only [h5, if_true, if_false] at hen hlv hna hmk ⊢
      split_ifs with hpend hmask hserv
      · exact ⟨⟨rfl, rfl, rfl, rfl⟩, .inl ⟨rfl, rfl⟩⟩
      · exact ⟨⟨rfl, rfl, rfl, rfl⟩, .inr ⟨hlv, rfl, .inr ⟨rfl, .inl (hmk hmask)⟩⟩⟩
      · exact ⟨⟨rfl, rfl, rfl, rfl⟩, .inr ⟨hlv, rfl, .inr ⟨rfl, .inr (hna hserv)⟩⟩⟩
      · exact ⟨⟨rfl, rfl, rfl, rfl⟩, .inr ⟨hlv, rfl, .inl rfl⟩⟩

/-! ## Acknowledges -/

theorem dropRequest_frame (m : Mfp) (j : ℕ) : Requested m (m.dropRequest j) ∧
      ((m.dropRequest j).irqPending = m.irqPending &&& ~~~(1#16 <<< j) ∨
        j = 5 ∧ (m.dropRequest j).irqPending = m.irqPending) := by
  unfold dropRequest
  by_cases h5 : j = 5
  · simp only [h5, if_true, ne_eq, not_true_eq_false, false_or]
    split_ifs
    · exact ⟨⟨rfl, rfl, rfl, rfl⟩, .inl rfl⟩
    · exact ⟨⟨rfl, rfl, rfl, rfl⟩, .inr ⟨trivial, rfl⟩⟩
  · simp only [h5, if_false, ne_eq, not_false_eq_true, true_or, if_true]
    exact ⟨⟨rfl, rfl, rfl, rfl⟩, .inl rfl⟩

/-- `doInterrupt` has acknowledged request `j`. -/
structure Acked (m : Mfp) (j : ℕ) (m' : Mfp) : Prop where
  top : IsTop (m.irqPending &&& m.irqMask) j
  above : Above j m.irqInservice
  enable : m'.irqEnable = m.irqEnable
  mask : m'.irqMask = m.irqMask
  vr : m'.vr = m.vr
  pending : m'.irqPending = m.irqPending &&& ~~~(1#16 <<< j) ∨ j = 5 ∧ m'.irqPending = m.irqPending
  inservice : m'.irqInservice =
    if m.vr &&& vrSei ≠ 0 then m.irqInservice ||| 1#16 <<< j else m.irqInservice
  flag : m.vr &&& vrSei = 0 → m'.irqPending &&& m'.irqMask ≠ 0 → m'.spcflagMfp = true

theorem acked_of_top {m : Mfp} {j : ℕ} (ht : IsTop (m.irqPending &&& m.irqMask) j)
    (ha : Above j m.irqInservice) : Acked m j ((m.dropRequest j).enterService j) := by
  obtain ⟨hf, hp⟩ := dropRequest_frame m j
  unfold enterService
  by_cases hv : m.vr &&& vrSei ≠ 0
  · rw [if_pos (by rw [hf.vr]; exact hv)]
    exact ⟨ht, ha, hf.enable, hf.mask, hf.vr, hp, by rw [if_pos hv, hf.inservice],
      fun h => absurd h hv⟩
  · rw [if_neg (by rw [hf.vr]; exact hv)]
    split_ifs with hr
    · exact ⟨ht, ha, hf.enable, hf.mask, hf.vr, hp, by rw [if_neg hv]; exact hf.inservice,
        fun _ _ => rfl⟩
    · exact ⟨ht, ha, hf.enable, hf.mask, hf.vr, hp, by rw [if_neg hv]; exact hf.inservice,
        fun _ h => absurd h hr⟩

/-- What `doInterrupt` can do: clear the flag because nothing can be delivered, or acknowledge the
    highest pending request, which is above everything in service. -/
theorem doInterrupt_cases (m : Mfp) : (m.doInterrupt = (0, m.triggerMfp false) ∧
      ∀ j, IsTop (m.irqPending &&& m.irqMask) j → ¬ Above j m.irqInservice) ∨
    ∃ j m', m.doInterrupt = ((m.vr &&& vrVector) + j, m') ∧ Acked m j m' := by
  unfold doInterrupt
  cases hh : highest (m.irqPending &&& m.irqMask) 16 with
  | none =>
    refine .inl ⟨rfl, fun j hj => ?_⟩
    have := hj.1
    rw [highest_eq_none hh] at this; simp at this
  | some j =>
    have htop := highest_isTop hh
    have hj : j < 16 := lt_of_getLsbD htop.1
    dsimp only
    by_cases hs : m.irqInservice ≥ 1#16 <<< j
    · rw [if_pos hs]
      refine .inl ⟨rfl, fun k hk => ?_⟩
      have hkj : k = j := Nat.le_antisymm (htop.le hk.1) (hk.le htop.1)
      rw [hkj, above_iff_not_le hj, not_not]; exact hs
    · rw [if_neg hs]
      exact .inr ⟨j, _, rfl, acked_of_top htop ((above_iff_not_le hj).2 hs)⟩

/-! ## What the operations keep -/

/-- A property of the interrupt registers, `vr` and the flag that every way of changing them
    keeps. -/
structure Kept (P : Mfp → Prop) : Prop where
  quiet {m m'} : P m → m'.irqEnable = m.irqEnable → m'.irqPending = m.irqPending →
    m'.irqInservice = m.irqInservice → m'.irqMask = m.irqMask → m'.vr = m.vr →
    m'.spcflagMfp = m.spcflagMfp → P m'
  irq {m} (level : ℕ) (count : ℤ) : P m → P (m.irq level count)
  writeEnable {m} (e : U16) : P m → P (m.writeEnable e)
  writePending {m} (k : U16) : P m → P (m.writePending k)
  writeInservice {m} (k : U16) : P m → P (m.writeInservice k)
  writeMask {m} (k : U16) : P m → P (m.writeMask k)
  writeVr {m} (v : U8) : P m → P (m.writeVr v)
  doInterrupt {m} : P m → P m.doInterrupt.2
  /-- `SERVE_VBL_MFP` clears the flag after a result `0` -/
  noVector {m} : P m → m.doInterrupt.1 = 0 → P (m.doInterrupt.2.triggerMfp false)

namespace Kept
variable {P : Mfp → Prop} (hP : Kept P)
include hP

theorem irqLines (p : ℕ → Bool) {m : Mfp} (h : P m) : P (m.irqLines p) := by
  unfold Mfp.irqLines
  generalize List.range 8 = l
  induction l generalizing m with
  | nil => exact h
  | cons j l ih =>
    rw [List.foldl_cons]
    split_ifs
    · exact ih (hP.irq _ _ h)
    · exact ih h

theorem handleWrite {m : Mfp} (h : P m) (addr : U32) (value : U8) :
    P (m.handleWrite addr value) := by
  unfold Mfp.handleWrite
  by_cases ha : addr - hwOffset > hwSize
  · rw [if_pos ha]; exact h
  rw [if_neg ha]
  split
  case h_2 => exact hP.quiet (hP.irqLines _ h) rfl rfl rfl rfl rfl rfl
  case h_4 | h_5 => exact hP.writeEnable _ h
  case h_6 | h_7 => exact hP.writePending _ h
  case h_8 | h_9 => exact hP.writeInservice _ h
  case h_10 | h_11 => exact hP.writeMask _ h
  case h_12 => exact hP.writeVr _ h
  -- the ports and the timers
  all_goals exact hP.quiet h rfl rfl rfl rfl rfl rfl

theorem handleRead {m : Mfp} (h : P m) (busy : U8) (addr : U32) : P (m.handleRead busy addr).2 := by
  unfold Mfp.handleRead
  by_cases ha : addr - hwOffset > hwSize
  · rw [if_pos ha]; exact h
  rw [if_neg ha]
  split <;> exact hP.quiet h rfl rfl rfl rfl rfl rfl

/-- **Every operation keeps the property.** -/
theorem step {m : Mfp} (h : P m) : ∀ op : Op, P (m.step op).1
  | .write addr value => hP.handleWrite h addr value
  | .read busy addr => hP.handleRead h busy addr
  | .irq level count => hP.irq level count h
  | .setGPIPbit mask value => by
    simp only [Mfp.step, Mfp.setGPIPbit]
    exact hP.irqLines _ (hP.quiet h rfl rfl rfl rfl rfl rfl)
  | .doInterrupt => hP.doInterrupt h
  | .serve => by
    simp only [Mfp.step, serveMfp]
    by_cases hf : m.spcflagMfp
    · rw [if_pos hf]
      by_cases hr : m.doInterrupt.1 ≠ 0
      · rw [if_pos hr]; exact hP.doInterrupt h
      · rw [if_neg hr]; exact hP.noVector h (not_not.1 hr)
    · rw [if_neg hf]; exact h

theorem after {m : Mfp} (h0 : P (m.reset.triggerMfp false)) (ops : List Op) : P (m.after ops) :=
  @run_inv_all _ _ _ Mfp.step P (fun _ op h => hP.step h op) ops _ h0

end Kept

/-! ## No interrupt is lost -/

/-- A pending unmasked request above everything in service has the CPU's flag set. -/
def NoLost (m : Mfp) : Prop :=
  ∀ j, (m.irqPending &&& m.irqMask).getLsbD j = true → Above j m.irqInservice → m.spcflagMfp = true

theorem noLost_of_flag {m : Mfp} (h : m.spcflagMfp) : NoLost m := fun _ _ _ => h

theorem noLost_of_empty {m : Mfp} (h : m.irqPending &&& m.irqMask = 0) : NoLost m := by
  intro j hj; rw [h] at hj; simp at hj

/-- Taking requests away and leaving the rest alone loses nothing. -/
theorem NoLost.shrink {m m' : Mfp} (h : NoLost m)
    (hp : ∀ k, m'.irqPending.getLsbD k = true → m.irqPending.getLsbD k = true)
    (hm : m'.irqMask = m.irqMask) (hs : m'.irqInservice = m.irqInservice)
    (hf : m'.spcflagMfp = m.spcflagMfp) : NoLost m' := by
  intro j hj ha
  rw [getLsbD_and, and_eq_true, hm] at hj
  rw [hf]
  exact h j (by rw [getLsbD_and, hp j hj.1, hj.2]; rfl) (hs ▸ ha)

theorem noLost_irq {m : Mfp} (h : NoLost m) (level : ℕ) (count : ℤ) :
    NoLost (m.irq level count) := by
  obtain ⟨hr, ⟨hp, hf⟩ | ⟨-, hp, hf | ⟨hf, hb⟩⟩⟩ := irq_cases m level count
  · exact h.shrink (fun k hk => hp ▸ hk) hr.mask hr.inservice hf
  · exact noLost_of_flag hf
  · -- the new request is masked or below something in service: it asks for no flag
    intro j hj ha
    rw [getLsbD_and, and_eq_true, hp, getLsbD_or, getLsbD_bit, hr.mask] at hj
    rw [hr.inservice] at ha
    rw [hf]
    by_cases hjl : j = level
    · subst hjl
      rcases hb with hb | hb
      · rw [hb] at hj; exact absurd hj.2 (by simp)
      · exact absurd ha hb
    · refine h j ?_ ha
      simpa [hjl, getLsbD_and] using hj

theorem noLost_doInterrupt {m : Mfp} : NoLost m.doInterrupt.2 := by
  rcases doInterrupt_cases m with ⟨he, hno⟩ | ⟨j, m', he, ha⟩
  · rw [he]
    intro j hj hab
    obtain ⟨k, hk, hjk⟩ := exists_isTop hj
    exact absurd (hab.mono hjk) (hno k hk)
  · rw [he]
    by_cases hv : m.vr &&& vrSei = 0
    · by_cases hr : m'.irqPending &&& m'.irqMask = 0
      · exact noLost_of_empty hr
      · exact noLost_of_flag (ha.flag hv hr)
    · -- what is still pending is not above `j`, which is now in service
      intro k hk hab
      have hkj : k ≤ j := by
        refine ha.top.le ?_
        rw [getLsbD_and, and_eq_true, ha.mask] at hk
        rw [getLsbD_and, hk.2, Bool.and_true]
        rcases ha.pending with hp | ⟨-, hp⟩
        · rw [hp, getLsbD_and, and_eq_true] at hk; exact hk.1.1
        · exact hp ▸ hk.1
      have hj := hab j (by
        rw [ha.inservice, if_pos hv, getLsbD_or, getLsbD_bit]
        simp [lt_of_getLsbD ha.top.1])
      omega

/-- Every operation keeps `NoLost`. -/
theorem noLost_kept : Kept NoLost where
  quiet h _ hp hs hm _ hf := h.shrink (fun _ hk => hp ▸ hk) hm hs hf
  irq level count h := noLost_irq h level count
  writeEnable e h := by
    refine h.shrink (fun k hk => ?_) rfl rfl rfl
    simp only [writeEnable, getLsbD_and, and_eq_true] at hk
    exact hk.1
  writePending {m} k h := by
    unfold writePending
    dsimp only
    split_ifs with he
    · exact noLost_of_empty he
    · refine h.shrink (fun i hi => ?_) rfl rfl rfl
      rw [getLsbD_and, and_eq_true] at hi
      exact hi.1
  writeInservice k _ := by
    unfold writeInservice
    dsimp only
    split_ifs with he
    · exact noLost_of_flag rfl
    · exact noLost_of_empty (not_not.1 he)
  writeMask {m} k _ := by
    by_cases he : m.irqPending &&& k = 0
    · exact noLost_of_empty he
    · exact noLost_of_flag (by simpa [writeMask, triggerMfp] using he)
  writeVr {m} v h := by
    unfold writeVr
    dsimp only
    split_ifs with hv
    · exact h
    · by_cases he : m.irqPending &&& m.irqMask = 0
      · exact noLost_of_empty he
      · exact noLost_of_flag (by simpa [triggerMfp] using he)
  doInterrupt _ := noLost_doInterrupt
  noVector {m} _ hz := by
    rcases doInterrupt_cases m with ⟨he, -⟩ | ⟨j, m', he, ha⟩
    · have := noLost_doInterrupt (m := m)
      rw [he] at this ⊢; exact this
    · -- request 0 was acknowledged with the vectors at 0: nothing below it can be pending
      rw [he] at hz ⊢
      have hj : j = 0 := by simp only at hz; omega
      subst hj
      refine noLost_of_empty (eq_of_getLsbD_eq fun k _ => ?_)
      simp only [triggerMfp, ha.mask, getLsbD_and]
      rcases ha.pending with hp | ⟨h0, -⟩
      · by_cases hk : k = 0
        · subst hk; simp [hp]
        · have := ha.top.2 k (by omega)
          cases hb : m.irqPending.getLsbD k <;> simp_all
      · omega

/-- **No interrupt is lost.**  In every state reached from a reset, if the highest pending
    unmasked request is above everything in service, the CPU's flag is set. -/
theorem flag_of_deliverable (m : Mfp) (ops : List Op) (j : ℕ)
    (hj : IsTop ((m.after ops).irqPending &&& (m.after ops).irqMask) j)
    (ha : Above j (m.after ops).irqInservice) : (m.after ops).spcflagMfp = true :=
  noLost_kept.after (noLost_of_empty (by simp [reset, triggerMfp])) ops j hj.1 ha

/-- Timer C's request, made pending by `IRQ` after its line was enabled and unmasked, has the flag
    set. -/
theorem flag_of_deliverable_timerC :
    (Mfp.after default [.write 0xfffa09 0x20, .write 0xfffa15 0x20, .irq 5 1]).spcflagMfp = true :=
  flag_of_deliverable _ _ 5 (highest_isTop (by decide))
    ((above_iff_not_le (by decide)).2 (by decide))

/-! ## What an acknowledge returns -/

/-- Pending requests are enabled, and nothing is in service under automatic end of interrupt. -/
structure Sound (m : Mfp) : Prop where
  enabled : ∀ k, m.irqPending.getLsbD k = true → m.irqEnable.getLsbD k = true
  aei : m.vr &&& vrSei = 0 → m.irqInservice = 0

theorem sound_doInterrupt {m : Mfp} (h : Sound m) : Sound m.doInterrupt.2 := by
  rcases doInterrupt_cases m with ⟨he, -⟩ | ⟨j, m', he, ha⟩
  · rw [he]; exact ⟨h.enabled, h.aei⟩
  · rw [he]
    refine ⟨fun k hk => ?_, fun hv => ?_⟩
    · rw [ha.enable]
      rcases ha.pending with hp | ⟨-, hp⟩
      · rw [hp, getLsbD_and, and_eq_true] at hk; exact h.enabled k hk.1
      · exact h.enabled k (hp ▸ hk)
    · rw [ha.vr] at hv
      rw [ha.inservice, if_neg (not_not.2 hv)]; exact h.aei hv

theorem sound_kept : Kept Sound where
  quiet h he hp hs _ hv _ :=
    ⟨fun k hk => he ▸ h.enabled k (hp ▸ hk), fun hz => hs ▸ h.aei (hv ▸ hz)⟩
  irq {m} level count h := by
    obtain ⟨hr, ⟨hp, -⟩ | ⟨hen, hp, -⟩⟩ := irq_cases m level count
    · exact ⟨fun k hk => hr.enable ▸ h.enabled k (hp ▸ hk),
        fun hz => hr.inservice ▸ h.aei (hr.vr ▸ hz)⟩
    · refine ⟨fun k hk => ?_, fun hz => hr.inservice ▸ h.aei (hr.vr ▸ hz)⟩
      rw [hp, getLsbD_or, getLsbD_bit] at hk
      rw [hr.enable]
      by_cases hkl : k = level
      · exact hkl ▸ hen
      · exact h.enabled k (by simpa [hkl] using hk)
  writeEnable {m} e h := by
    refine ⟨fun k hk => ?_, h.aei⟩
    simp only [writeEnable, getLsbD_and, and_eq_true] at hk
    exact hk.2
  writePending {m} k h := by
    have hk : ∀ i, (m.irqPending &&& k).getLsbD i = true → m.irqEnable.getLsbD i = true := by
      intro i hi
      rw [getLsbD_and, and_eq_true] at hi
      exact h.enabled i hi.1
    unfold writePending
    dsimp only
    split_ifs <;> exact ⟨hk, h.aei⟩
  writeInservice {m} k h := by
    have hk : m.vr &&& vrSei = 0 → m.irqInservice &&& k = 0 := by
      intro hz; rw [h.aei hz]; simp
    unfold writeInservice
    dsimp only
    split_ifs <;> exact ⟨h.enabled, hk⟩
  writeMask k h := ⟨h.enabled, h.aei⟩
  writeVr {m} v h := by
    unfold writeVr
    dsimp only
    split_ifs with hv
    · exact ⟨h.enabled, fun hz => absurd hz hv⟩
    · exact ⟨h.enabled, fun _ => rfl⟩
  doInterrupt h := sound_doInterrupt h
  noVector h _ := by obtain ⟨he, ha⟩ := sound_doInterrupt h; exact ⟨he, ha⟩

theorem sound_after (m : Mfp) (ops : List Op) : Sound (m.after ops) :=
  sound_kept.after ⟨by simp [reset, triggerMfp], fun _ => rfl⟩ ops

/-- What the comment on `doInterrupt` promises: the result `0` means that nothing was acknowledged,
    any other result is the vector of the highest pending request. -/
def AckSound (m : Mfp) : Prop :=
  (m.doInterrupt.1 = 0 →
    m.doInterrupt.2.irqPending = m.irqPending ∧ m.doInterrupt.2.irqInservice = m.irqInservice ∧
      m.doInterrupt.2.timerCounter = m.timerCounter) ∧
  (m.doInterrupt.1 ≠ 0 → ∃ j, IsTop (m.irqPending &&& m.irqMask) j ∧
    m.doInterrupt.1 = (m.vr &&& vrVector) + j ∧ m.irqEnable.getLsbD j = true ∧
    Above j m.irqInservice ∧
    (m.vr &&& vrSei ≠ 0 → m.doInterrupt.2.irqInservice = m.irqInservice ||| 1#16 <<< j))

/-- The request at level 0 is the highest one to deliver and its vector is the number 0. -/
def VectorZero (m : Mfp) : Prop :=
  m.vr &&& vrVector = 0 ∧ m.irqPending &&& m.irqMask = 1 ∧ m.irqInservice = 0

/-- An acknowledge of request 0 with the vector 0 always shows: the request is taken off. -/
theorem not_ackSound_of_zero {m m' : Mfp} (he : m.doInterrupt = (0, m')) (ha : Acked m 0 m') :
    ¬ AckSound m := by
  intro h
  have hp : m'.irqPending = m.irqPending := by simpa [he] using (h.1 (by rw [he])).1
  have ht := ha.top.1
  rw [getLsbD_and, and_eq_true] at ht
  rcases ha.pending with hc | ⟨h0, -⟩
  · rw [hp] at hc
    have := ht.1
    rw [hc] at this; simp at this
  · omega

/-- An acknowledge is sound except where it gives vector 0. -/
theorem ackSound_iff {m : Mfp} (hs : Sound m) : AckSound m ↔ ¬ VectorZero m := by
  rcases doInterrupt_cases m with ⟨he, hno⟩ | ⟨j, m', he, ha⟩
  · refine iff_of_true ⟨fun _ => ?_, fun h => absurd (by rw [he]) h⟩ ?_
    · rw [he]; exact ⟨rfl, rfl, rfl⟩
    · rintro ⟨-, hp, hi⟩
      exact hno 0 ((isTop_zero_iff (by decide)).2 hp) (above_zero_iff.2 hi)
  · by_cases hz : (m.vr &&& vrVector) + j = 0
    · obtain ⟨hv, rfl⟩ : m.vr &&& vrVector = 0 ∧ j = 0 := by omega
      refine iff_of_false (not_ackSound_of_zero (by rw [he, hv]) ha) (not_not.2 ⟨hv, ?_, ?_⟩)
      · exact (isTop_zero_iff (by decide)).1 ha.top
      · exact above_zero_iff.1 ha.above
    · refine iff_of_true ⟨fun h => absurd (by simpa [he] using h) hz, fun _ => ?_⟩ ?_
      · have ht := ha.top.1
        rw [getLsbD_and, and_eq_true] at ht
        refine ⟨j, ha.top, by rw [he], hs.enabled j ht.1, ha.above, fun hv => ?_⟩
        rw [he]; simpa [hv] using ha.inservice
      · rintro ⟨hv, hp, -⟩
        have := ((isTop_zero_iff (by decide)).2 hp).le ha.top.1
        omega

/-- **Acknowledges.**  In every state reached from a reset the pending requests are enabled, nothing
    is in service under automatic end of interrupt, and an acknowledge is sound exactly if it is not
    the one of request 0 with the vector number 0. -/
theorem acknowledge_sound_iff (m : Mfp) (ops : List Op) :
    (m.after ops).irqPending &&& ~~~(m.after ops).irqEnable = 0 ∧
    ((m.after ops).vr &&& vrSei = 0 → (m.after ops).irqInservice = 0) ∧
    (AckSound (m.after ops) ↔ ¬ VectorZero (m.after ops)) := by
  have hs := sound_after m ops
  refine ⟨eq_of_getLsbD_eq fun k hk => ?_, hs.aei, ackSound_iff hs⟩
  rw [getLsbD_and, getLsbD_not]
  cases hb : (m.after ops).irqPending.getLsbD k with
  | false => simp
  | true => simp [hs.enabled k hb]

/-- After a reset the vectors are at 0: with request 0 enabled, unmasked and pending, `doInterrupt`
    takes it off and returns 0. -/
theorem acknowledge_vector_zero :
    ¬ AckSound (Mfp.after default [.write 0xfffa09 1, .write 0xfffa15 1, .irq 0 1]) := by
  intro h
  have := h.1 (by decide)
  revert this
  decide

end Aranym.Mfp
