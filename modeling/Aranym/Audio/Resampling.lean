/-
  Resampling (`audio_conv.cpp`).

  `rescaleFreq8` and `rescaleFreq16` compute the position of the next frame from a counter
  that is incremented after its use: the first frame is read at position 0, and frame `k + 1`
  where frame `k` is.

  All numbers are of type `int` in the source.  Here they are natural numbers, and `Fits` says
  when none of them overflows.
-/
import Aranym.Lib.Words

namespace Aranym.Audio

/-! ## The loop -/

/-- Rates, and the layout of the source in samples. -/
structure Rescaling where
  chan : ℕ
  srcRate : ℕ
  dstRate : ℕ
  skip : ℕ
  offset : ℕ

namespace Rescaling
variable {α : Type} (r : Rescaling) (source : ℕ → α) (srcLen dstLen : ℕ)

/-- The samples of the frame at a position. -/
def frame (pos : ℕ) : List α := (List.range r.chan).map fun i => source (pos + i)

/-- The loop, after `k` frames. -/
def loop : ℕ → ℕ → ℕ → List α × ℕ
  | 0, _, pos => ([], pos)
  | fuel + 1, k, pos =>
    if pos < srcLen ∧ k * r.chan < dstLen then
      let rest := loop fuel (k + 1) (k * r.srcRate / r.dstRate * r.skip + r.offset)
      (r.frame source pos ++ rest.1, rest.2)
    else ([], pos)

/-- The samples written and the position reached; each turn of the loop writes a sample. -/
def rescale : List α × ℕ := r.loop source srcLen dstLen dstLen 0 0

/-- Where the code reads frame `k`. -/
def readPos : ℕ → ℕ
  | 0 => 0
  | k + 1 => k * r.srcRate / r.dstRate * r.skip + r.offset

/-- Where frame `k` is. -/
def framePos (k : ℕ) : ℕ := r.offset + r.skip * (k * r.srcRate / r.dstRate)

/-- Frame `k` is written, after the ones before it. -/
def Goes (k : ℕ) : Prop := r.readPos k < srcLen ∧ k * r.chan < dstLen

instance : DecidablePred (r.Goes srcLen dstLen) := fun _ => inferInstanceAs (Decidable (_ ∧ _))

/-- No number of the loop overflows.  Lengths and positions are doubled by `rescaleFreq16`. -/
def Fits : Prop :=
  srcLen < 2 ^ 30 ∧ dstLen + r.chan ≤ 2 ^ 30 ∧ ∀ k < dstLen, r.Goes srcLen dstLen k →
    k * r.srcRate < 2 ^ 31 ∧ r.readPos (k + 1) < 2 ^ 30

instance : Decidable (r.Fits srcLen dstLen) := inferInstanceAs (Decidable (_ ∧ _))

/-- The first frame from `k` on that is not written. -/
def countFrom : ℕ → ℕ → ℕ
  | 0, k => k
  | fuel + 1, k => if r.Goes srcLen dstLen k then countFrom fuel (k + 1) else k

/-- The number of frames. -/
def count : ℕ := r.countFrom srcLen dstLen dstLen 0

theorem countFrom_spec (fuel k : ℕ) : k ≤ r.countFrom srcLen dstLen fuel k ∧
    (∀ j, k ≤ j → j < r.countFrom srcLen dstLen fuel k → r.Goes srcLen dstLen j) ∧
    (r.countFrom srcLen dstLen fuel k = k + fuel ∨
      ¬ r.Goes srcLen dstLen (r.countFrom srcLen dstLen fuel k)) := by
  induction fuel generalizing k with
  | zero => exact ⟨le_rfl, fun j h1 h2 => absurd h2 (Nat.not_lt.2 h1), .inl rfl⟩
  | succ fuel ih =>
    rw [countFrom]
    split_ifs with hgo
    · obtain ⟨hle, hall, hend⟩ := ih (k + 1)
      refine ⟨(Nat.le_succ k).trans hle, fun j h1 h2 => ?_, hend.imp_left fun h => by omega⟩
      rcases Nat.eq_or_lt_of_le h1 with rfl | h1
      · exact hgo
      · exact hall j h1 h2
    · exact ⟨le_rfl, fun j h1 h2 => absurd h2 (Nat.not_lt.2 h1), .inr hgo⟩

theorem goes_of_lt_count {k : ℕ} (h : k < r.count srcLen dstLen) : r.Goes srcLen dstLen k :=
  (r.countFrom_spec srcLen dstLen dstLen 0).2.1 k (Nat.zero_le k) h

theorem not_goes_count (hchan : 0 < r.chan) : ¬ r.Goes srcLen dstLen (r.count srcLen dstLen) := by
  rcases (r.countFrom_spec srcLen dstLen dstLen 0).2.2 with h | h
  · rintro ⟨-, hlt⟩
    rw [count, h, Nat.zero_add] at hlt
    exact absurd hlt (Nat.not_lt.2 (Nat.le_mul_of_pos_right _ hchan))
  · exact h

variable {srcLen dstLen} in
theorem count_eq (hchan : 0 < r.chan) {n : ℕ} (hall : ∀ k < n, r.Goes srcLen dstLen k)
    (hn : ¬ r.Goes srcLen dstLen n) : r.count srcLen dstLen = n := by
  rcases Nat.lt_trichotomy (r.count srcLen dstLen) n with h | h | h
  · exact absurd (hall _ h) (r.not_goes_count srcLen dstLen hchan)
  · exact h
  · exact absurd (r.goes_of_lt_count srcLen dstLen h) hn

theorem loop_eq (fuel k : ℕ) : r.loop source srcLen dstLen fuel k (r.readPos k) =
    ((List.range' k (r.countFrom srcLen dstLen fuel k - k)).flatMap fun j => r.frame source
      (r.readPos j),
      r.readPos (r.countFrom srcLen dstLen fuel k)) := by
  induction fuel generalizing k with
  | zero => simp [loop, countFrom]
  | succ fuel ih =>
    rw [loop, countFrom]
    change (if r.Goes srcLen dstLen k then _ else _) = _
    by_cases hgo : r.Goes srcLen dstLen k
    · have hle := (r.countFrom_spec srcLen dstLen fuel (k + 1)).1
      have hlen : r.countFrom srcLen dstLen fuel (k + 1) - k =
        r.countFrom srcLen dstLen fuel (k + 1) - (k + 1) + 1 := by omega
      have hih := ih (k + 1)
      rw [readPos] at hih
      rw [if_pos hgo, if_pos hgo, hih, hlen, List.range'_succ, List.flatMap_cons]
    · rw [if_neg hgo, if_neg hgo, Nat.sub_self]
      rfl

/-- **The loop.**  It writes the frames read at the positions `readPos`. -/
theorem rescale_eq : r.rescale source srcLen dstLen =
    ((List.range (r.count srcLen dstLen)).flatMap fun k => r.frame source (r.readPos k), r.readPos
      (r.count srcLen dstLen)) := by
  have h := r.loop_eq source srcLen dstLen dstLen 0
  rw [Nat.sub_zero, ← List.range_eq_range'] at h
  exact h

/-! ## The right frames -/

theorem readPos_succ (k : ℕ) : r.readPos (k + 1) = r.framePos k := by
  rw [readPos, framePos, Nat.add_comm, Nat.mul_comm]

theorem readPos_eq_iff (hd : 0 < r.dstRate) (n : ℕ) : (∀ k < n, r.readPos k = r.framePos k) ↔
    n = 0 ∨ r.offset = 0 ∧ (r.skip = 0 ∨ (n - 1) * r.srcRate < r.dstRate) := by
  have hzero : r.framePos 0 = r.offset := by simp [framePos]
  constructor
  · intro hall
    rcases Nat.eq_zero_or_pos n with hn | hn
    · exact .inl hn
    have h0 : r.offset = 0 := by rw [← hzero, ← hall 0 hn]; rfl
    have hfirst : ∀ k < n, r.framePos k = 0 := by
      intro k hk
      induction k with
      | zero => rw [hzero, h0]
      | succ k ih => rw [← hall _ hk, readPos_succ, ih (by omega)]
    have hlast := hfirst (n - 1) (by omega)
    rw [framePos, h0, Nat.zero_add, Nat.mul_eq_zero, Nat.div_eq_zero_iff] at hlast
    exact .inr ⟨h0, hlast.imp_right fun h => h.resolve_left hd.ne'⟩
  · rintro (rfl | ⟨h0, hlast⟩) k hk
    · exact absurd hk (Nat.not_lt_zero k)
    have hall : ∀ j < n, r.framePos j = 0 := by
      intro j hj
      rw [framePos, h0, Nat.zero_add, Nat.mul_eq_zero, Nat.div_eq_zero_iff]
      exact hlast.imp_right fun h => .inr ((Nat.mul_le_mul_right _ (by omega)).trans_lt h)
    cases k with
    | zero => rw [hall 0 hk]; rfl
    | succ k => rw [readPos_succ, hall k (by omega), hall (k + 1) hk]

theorem readPos_mono : Monotone r.readPos := by
  refine monotone_nat_of_le_succ fun k => ?_
  cases k with
  | zero => exact Nat.zero_le _
  | succ k =>
    have hdiv : k * r.srcRate / r.dstRate ≤ (k + 1) * r.srcRate / r.dstRate :=
      Nat.div_le_div_right (Nat.mul_le_mul_right _ (Nat.le_succ k))
    exact Nat.add_le_add_right (Nat.mul_le_mul_right _ hdiv) _

theorem count_eq_zero_iff (hchan : 0 < r.chan) :
    r.count srcLen dstLen = 0 ↔ srcLen = 0 ∨ dstLen = 0 := by
  have hzero : r.Goes srcLen dstLen 0 ↔ ¬ (srcLen = 0 ∨ dstLen = 0) := by
    rw [Goes, readPos]
    omega
  constructor
  · intro h
    have hend := r.not_goes_count srcLen dstLen hchan
    rw [h, hzero, not_not] at hend
    exact hend
  · intro h
    by_contra hne
    exact hzero.1 (r.goes_of_lt_count srcLen dstLen (Nat.pos_of_ne_zero hne)) h

theorem length_rescale :
    (r.rescale source srcLen dstLen).1.length = r.count srcLen dstLen * r.chan := by
  rw [r.rescale_eq]
  simp [List.length_flatMap, frame]

/-- The right frames are written where none is written, or all that are written are the first
    one. -/
theorem right_iff (hchan : 0 < r.chan) (hd : 0 < r.dstRate) :
    (∀ k < r.count srcLen dstLen, r.readPos k = r.framePos k) ↔ (srcLen = 0 ∨ dstLen = 0) ∨
      r.offset = 0 ∧ (r.skip = 0 ∨ (dstLen - 1) / r.chan * r.srcRate < r.dstRate) := by
  have hlt := fun k => r.goes_of_lt_count srcLen dstLen (k := k)
  have hend := r.not_goes_count srcLen dstLen hchan
  rw [r.readPos_eq_iff hd, ← r.count_eq_zero_iff srcLen dstLen hchan]
  generalize r.count srcLen dstLen = n at hlt hend ⊢
  refine or_congr_right' fun hn => and_congr_right fun hoff => or_congr_right' fun hskip => ?_
  have hlast := hlt (n - 1) (by omega)
  constructor
  · intro h
    -- frame `n` would be the first one again, so it is the room that ends the loop
    have hpos : r.readPos n = 0 := by
      obtain ⟨k, rfl⟩ := Nat.exists_eq_succ_of_ne_zero hn
      rw [Nat.succ_sub_one] at h
      rw [readPos_succ, framePos, hoff, Nat.div_eq_of_lt h, Nat.mul_zero]
    have hsrc : r.readPos n < srcLen := hpos.trans_lt ((Nat.zero_le _).trans_lt hlast.1)
    have hroom : dstLen ≤ n * r.chan := Nat.le_of_not_lt fun hlt => hend ⟨hsrc, hlt⟩
    have hle : (dstLen - 1) / r.chan ≤ n - 1 := by
      have hprod : 0 < n * r.chan := Nat.mul_pos (Nat.pos_of_ne_zero hn) hchan
      have : (dstLen - 1) / r.chan < n := (Nat.div_lt_iff_lt_mul hchan).2 (by omega)
      omega
    exact (Nat.mul_le_mul_right _ hle).trans_lt h
  · intro h
    have hle : n - 1 ≤ (dstLen - 1) / r.chan :=
      (Nat.le_div_iff_mul_le hchan).2 (Nat.le_sub_one_of_lt hlast.2)
    exact (Nat.mul_le_mul_right _ hle).trans_lt h

/-! ## Two calls -/

section
variable (hchan : 0 < r.chan) (hd : 0 < r.dstRate) (hrate : r.srcRate = r.dstRate)
include hd hrate

theorem readPos_equal (k : ℕ) : r.readPos (k + 1) = k * r.skip + r.offset := by
  rw [readPos, hrate, Nat.mul_div_cancel _ hd]

theorem readPos_regular (hoff : r.offset = r.skip) (k : ℕ) : r.readPos k = k * r.skip := by
  cases k with
  | zero => rw [readPos, Nat.zero_mul]
  | succ k => rw [r.readPos_equal hd hrate, hoff, Nat.succ_mul]

include hchan

theorem count_two_calls (hoff : r.offset = r.skip) (n₁ n₂ : ℕ) :
    r.count srcLen ((n₁ + n₂) * r.chan) =
      r.count srcLen (n₁ * r.chan) + r.count (srcLen - r.readPos (r.count srcLen (n₁ * r.chan)))
        (n₂ * r.chan) := by
  have hgoes : ∀ l n k, r.Goes l (n * r.chan) k ↔ k * r.skip < l ∧ k < n := by
    intro l n k
    rw [Goes, r.readPos_regular hd hrate hoff, Nat.mul_lt_mul_right hchan]
  have hlt1 := fun k => r.goes_of_lt_count srcLen (n₁ * r.chan) (k := k)
  have hend1 := r.not_goes_count srcLen (n₁ * r.chan) hchan
  rw [r.readPos_regular hd hrate hoff]
  generalize r.count srcLen (n₁ * r.chan) = m₁ at hlt1 hend1 ⊢
  have hlt2 := fun k => r.goes_of_lt_count (srcLen - m₁ * r.skip) (n₂ * r.chan) (k := k)
  have hend2 := r.not_goes_count (srcLen - m₁ * r.skip) (n₂ * r.chan) hchan
  simp only [hgoes] at hlt1 hend1 hlt2 hend2
  have hle : m₁ ≤ n₁ := by
    rcases Nat.eq_zero_or_pos m₁ with h | h
    · omega
    · have := (hlt1 (m₁ - 1) (by omega)).2
      omega
  refine r.count_eq hchan (fun k hk => (hgoes _ _ _).2 ?_) fun hgo => ?_
  · by_cases hk1 : k < m₁
    · have := hlt1 k hk1
      omega
    · obtain ⟨j, rfl⟩ := Nat.exists_eq_add_of_le (Nat.le_of_not_lt hk1)
      have := hlt2 j (by omega)
      rw [Nat.add_mul]
      omega
  · have hgo := (hgoes _ _ _).1 hgo
    rw [Nat.add_mul] at hgo
    omega

/-- What two calls for `n₁` and `n₂` frames write and read. -/
theorem rescale_two_calls (hoff : r.offset = r.skip) (n₁ n₂ : ℕ) :
    let first := r.rescale source srcLen (n₁ * r.chan)
    let second := r.rescale (fun i => source (first.2 + i)) (srcLen - first.2) (n₂ * r.chan)
    r.rescale source srcLen ((n₁ + n₂) * r.chan) = (first.1 ++ second.1, first.2 + second.2) := by
  have hadd : ∀ j k, r.readPos (j + k) = r.readPos j + r.readPos k := by
    intro j k
    simp only [r.readPos_regular hd hrate hoff, Nat.add_mul]
  simp only [rescale_eq, r.count_two_calls srcLen hchan hd hrate hoff, List.range_add,
    List.flatMap_append, List.flatMap_map, hadd]
  congr 3
  funext k
  exact congrArg (List.map · _) (funext fun i => by rw [Nat.add_assoc])

end

section
variable {srcLen} (hchan : 0 < r.chan) {n₁ : ℕ}
include hchan

/-- The source is over in the first call. -/
theorem rescale_of_short (hshort : srcLen ≤ r.readPos n₁) (n₂ : ℕ) :
    r.rescale source srcLen ((n₁ + n₂) * r.chan) = r.rescale source srcLen (n₁ * r.chan) ∧
      srcLen ≤ (r.rescale source srcLen (n₁ * r.chan)).2 := by
  have hlt := fun k => r.goes_of_lt_count srcLen (n₁ * r.chan) (k := k)
  have hend := r.not_goes_count srcLen (n₁ * r.chan) hchan
  rw [rescale_eq, rescale_eq]
  generalize r.count srcLen (n₁ * r.chan) = m at hlt hend ⊢
  have hpos : srcLen ≤ r.readPos m := by
    by_contra hlong
    have hroom : n₁ * r.chan ≤ m * r.chan :=
      Nat.le_of_not_lt fun hlt => hend ⟨Nat.lt_of_not_le hlong, hlt⟩
    exact hlong (hshort.trans (r.readPos_mono (Nat.le_of_mul_le_mul_right hroom hchan)))
  have hcount : r.count srcLen ((n₁ + n₂) * r.chan) = m := by
    refine r.count_eq hchan (fun k hk => ⟨(hlt k hk).1, ?_⟩) fun hgo =>
      absurd hgo.1 (Nat.not_lt.2 hpos)
    exact (hlt k hk).2.trans_le (Nat.mul_le_mul_right _ (Nat.le_add_right n₁ n₂))
  rw [hcount]
  exact ⟨rfl, hpos⟩

theorem count_of_long (hlong : r.readPos (n₁ - 1) < srcLen) :
    r.count srcLen (n₁ * r.chan) = n₁ := by
  refine r.count_eq hchan (fun k hk => ⟨?_, ?_⟩) fun hgo => lt_irrefl _ hgo.2
  · exact (r.readPos_mono (by omega)).trans_lt hlong
  · exact (Nat.mul_lt_mul_right hchan).2 hk

end

/-- **Two calls** at equal rates are one call exactly if one of them is for no frames, the offset is
    that of one frame, or the source is over in the first one. -/
theorem rescale_two_calls_iff (hchan : 0 < r.chan) (hd : 0 < r.dstRate)
    (hrate : r.srcRate = r.dstRate) (n₁ n₂ : ℕ) :
    let first := r.rescale source srcLen (n₁ * r.chan)
    let second := r.rescale (fun i => source (first.2 + i)) (srcLen - first.2) (n₂ * r.chan)
    r.rescale source srcLen ((n₁ + n₂) * r.chan) = (first.1 ++ second.1, first.2 + second.2) ↔
      n₁ = 0 ∨ n₂ = 0 ∨ r.offset = r.skip ∨ srcLen ≤ (n₁ - 1) * r.skip + r.offset := by
  have hnone : ∀ {s : ℕ → α} {l n : ℕ}, l = 0 ∨ n = 0 → r.rescale s l n = ([], 0) := by
    intro s l n h
    rw [rescale_eq, (r.count_eq_zero_iff l n hchan).2 h]
    rfl
  constructor
  · intro heq
    by_contra hcon
    push Not at hcon
    obtain ⟨h₁, h₂, hoff, hlong⟩ := hcon
    obtain ⟨a, rfl⟩ := Nat.exists_eq_succ_of_ne_zero h₁
    rw [Nat.succ_sub_one, ← r.readPos_equal hd hrate] at hlong
    have hcount : r.count srcLen ((a + 1) * r.chan) = a + 1 :=
      r.count_of_long hchan ((r.readPos_mono (Nat.le_succ a)).trans_lt hlong)
    have hfirst : (r.rescale source srcLen ((a + 1) * r.chan)).2 = r.readPos (a + 1) := by
      rw [rescale_eq, hcount]
    have hlen := congrArg (fun x => x.1.length) heq
    have hpos := congrArg Prod.snd heq
    rw [hfirst] at hlen hpos
    simp only [List.length_append, length_rescale, hcount] at hlen
    rw [← Nat.add_mul] at hlen
    simp only [rescale_eq] at hpos
    rw [Nat.eq_of_mul_eq_mul_right hchan hlen] at hpos
    -- the second call writes a frame, behind which the positions differ
    have hsecond : r.count (srcLen - r.readPos (a + 1)) (n₂ * r.chan) ≠ 0 := by
      rw [ne_eq, r.count_eq_zero_iff _ _ hchan, Nat.mul_eq_zero]
      omega
    obtain ⟨b, hb⟩ := Nat.exists_eq_succ_of_ne_zero hsecond
    rw [hb, Nat.succ_eq_add_one, ← Nat.add_assoc, r.readPos_equal hd hrate,
      r.readPos_equal hd hrate, r.readPos_equal hd hrate, Nat.add_mul, Nat.add_mul] at hpos
    omega
  · rintro (rfl | rfl | hoff | hshort)
    · simp only [Nat.zero_mul, Nat.zero_add, hnone (.inr rfl), Nat.sub_zero, List.nil_append]
    · simp only [Nat.zero_mul, Nat.add_zero, hnone (.inr rfl), List.append_nil]
    · exact r.rescale_two_calls source srcLen hchan hd hrate hoff n₁ n₂
    · rcases Nat.eq_zero_or_pos n₁ with rfl | h₁
      · simp only [Nat.zero_mul, Nat.zero_add, hnone (.inr rfl), Nat.sub_zero, List.nil_append]
      rw [← r.readPos_equal hd hrate, Nat.sub_add_cancel h₁] at hshort
      obtain ⟨heq, hover⟩ := r.rescale_of_short source hchan hshort n₂
      rw [heq, Nat.sub_eq_zero_of_le hover, hnone (.inl rfl), List.append_nil, Nat.add_zero]

/-- What a conversion does where no number overflows, with its lengths in samples. -/
structure Resamples (convert : (ℕ → α) → ℕ → ℕ → List α × ℕ) : Prop where
  frames source srcLen dstLen : r.Fits srcLen dstLen → convert source srcLen dstLen =
    ((List.range (r.count srcLen dstLen)).flatMap fun k => r.frame source (r.readPos k),
      r.readPos (r.count srcLen dstLen))
  right_iff srcLen dstLen : r.Fits srcLen dstLen →
    ((∀ k < r.count srcLen dstLen, r.readPos k = r.framePos k) ↔ (srcLen = 0 ∨ dstLen = 0) ∨
      r.offset = 0 ∧ (r.skip = 0 ∨ (dstLen - 1) / r.chan * r.srcRate < r.dstRate))
  twoCalls_iff source srcLen n₁ n₂ : r.Fits srcLen ((n₁ + n₂) * r.chan) → r.srcRate = r.dstRate →
    let first := convert source srcLen (n₁ * r.chan)
    let second := convert (fun i => source (first.2 + i)) (srcLen - first.2) (n₂ * r.chan)
    (convert source srcLen ((n₁ + n₂) * r.chan) = (first.1 ++ second.1, first.2 + second.2) ↔
      n₁ = 0 ∨ n₂ = 0 ∨ r.offset = r.skip ∨ srcLen ≤ (n₁ - 1) * r.skip + r.offset)

theorem resamples_rescale (hchan : 0 < r.chan) (hd : 0 < r.dstRate) :
    r.Resamples (α := α) r.rescale :=
  ⟨fun source srcLen dstLen _ => r.rescale_eq source srcLen dstLen,
    fun srcLen dstLen _ => r.right_iff srcLen dstLen hchan hd,
    fun source srcLen n₁ n₂ _ hrate => r.rescale_two_calls_iff source srcLen hchan hd hrate n₁ n₂⟩

end Rescaling

/-! ## The two functions -/

/-- The settings of `setConversion` and the buffer.  `SDL` makes `mul` bytes of `div` bytes
    (`len_ratio`); `wide` is a source format of 16 bits. -/
structure AudioConv where
  srcRate : ℕ
  srcChan : ℕ
  srcOffset : ℕ
  srcSkip : ℕ
  dstRate : ℕ
  tmpBufLen : ℕ
  wide : Bool
  mul : ℕ
  div : ℕ
  deriving DecidableEq, Repr

namespace AudioConv
variable (c : AudioConv)

/-- The bytes of `rescaleFreq8`. -/
def rescaling8 : Rescaling := ⟨c.srcChan, c.srcRate, c.dstRate, c.srcSkip, c.srcOffset⟩

/-- The words of `rescaleFreq16`. -/
def rescaling16 : Rescaling := ⟨c.srcChan, c.srcRate, c.dstRate, c.srcSkip / 2, c.srcOffset / 2⟩

/-- `rescaleFreq8`: the samples written and the bytes read. -/
def rescaleFreq8 (source : ℕ → U8) (srcLen dstLen : ℕ) : List U8 × ℕ :=
  c.rescaling8.rescale source srcLen dstLen

/-- `rescaleFreq16`: the samples written and the bytes read. -/
def rescaleFreq16 (source : ℕ → U16) (srcLen dstLen : ℕ) : List U16 × ℕ :=
  let r := c.rescaling16.rescale source (srcLen / 2) (dstLen / 2)
  (r.1, r.2 * 2)

/-- `rescaleFreq16` with its lengths in samples. -/
def rescaleWords (source : ℕ → U16) (srcLen dstLen : ℕ) : List U16 × ℕ :=
  let r := c.rescaleFreq16 source (srcLen * 2) (dstLen * 2)
  (r.1, r.2 / 2)

theorem rescaleWords_eq : c.rescaleWords = c.rescaling16.rescale := by
  funext source srcLen dstLen
  simp [rescaleWords, rescaleFreq16]

/-- **Resampling**, for every source, lengths, offset and skip with which no number overflows: frame
    0 is read at position 0 and frame `k + 1` where frame `k` is.  These are the right frames only
    if all are the first one.  Two calls at equal rates do what one call does only if the offset is
    that of one frame, or one of them has nothing to do. -/
theorem resampling (hchan : c.srcChan = 1 ∨ c.srcChan = 2) (hd : 0 < c.dstRate) :
    c.rescaling8.Resamples c.rescaleFreq8 ∧ c.rescaling16.Resamples c.rescaleWords := by
  have hpos : 0 < c.srcChan := by omega
  refine ⟨c.rescaling8.resamples_rescale hpos hd, ?_⟩
  rw [rescaleWords_eq]
  exact c.rescaling16.resamples_rescale hpos hd

end AudioConv

/-- Bytes, in mono, at equal rates, without other tracks. -/
def plainConv : AudioConv := ⟨1, 1, 0, 1, 1, 0, false, 1, 1⟩

theorem resampling_plain : plainConv.rescaling8.Resamples plainConv.rescaleFreq8 ∧
    plainConv.rescaling16.Resamples plainConv.rescaleWords :=
  plainConv.resampling (.inl rfl) (by decide)

/-- The first sample is doubled, in each call. -/
theorem resampling_doubles_first :
    plainConv.rescaleFreq8 (BitVec.ofNat 8) 8 4 = ([0, 0, 1, 2], 3) ∧
    plainConv.rescaling8.framePos 1 = 1 ∧
    plainConv.rescaleFreq8 (BitVec.ofNat 8) 8 2 = ([0, 0], 1) ∧
    plainConv.rescaleFreq8 (fun i => BitVec.ofNat 8 (1 + i)) 7 2 = ([1, 1], 1) := by
  decide

end Aranym.Audio
