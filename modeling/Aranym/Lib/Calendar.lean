/-
  Day numbers of the Gregorian calendar.

  Days are counted from the first day of year 0, in both directions.  A `Date`
  carries the proof that its day exists, and a date and its number determine
  each other.
-/
import Mathlib.Algebra.Order.Group.Int
import Mathlib.Data.Nat.Find
import Mathlib.Tactic.Common

namespace Lib

namespace Calendar

/-! ## Years -/

variable (leap : Bool) (y n : ℤ)

/-- A leap year. -/
def isLeap : Bool := y % 4 = 0 ∧ (y % 100 ≠ 0 ∨ y % 400 = 0)

/-- The number of the first day of the year. -/
def yearStart : ℤ := 365 * y + (y + 3) / 4 - (y + 99) / 100 + (y + 399) / 400

/-- Its days. -/
def yearLength : ℕ := if leap then 366 else 365

theorem yearStart_succ : yearStart (y + 1) = yearStart y + yearLength (isLeap y) := by
  unfold yearStart yearLength
  by_cases h : y % 4 = 0 ∧ (y % 100 ≠ 0 ∨ y % 400 = 0)
  · rw [if_pos (show isLeap y = true from decide_eq_true h)]
    omega
  · rw [if_neg (show ¬ isLeap y = true from fun hl => h (of_decide_eq_true hl))]
    omega

theorem yearStart_add_le (k : ℕ) : yearStart y + k ≤ yearStart (y + k) := by
  induction k with
  | zero => simp
  | succ k ih =>
    have hstep := yearStart_succ (y + k)
    have hlen : 1 ≤ yearLength (isLeap (y + k)) := by unfold yearLength; split_ifs <;> omega
    push_cast
    rw [← add_assoc y]
    omega

theorem yearStart_mono {y y' : ℤ} (h : y ≤ y') : yearStart y ≤ yearStart y' := by
  obtain ⟨k, rfl⟩ := Int.le.dest h
  have := yearStart_add_le y k
  omega

/-- The year of a day: an estimate from the 146097 days of 400 years, and its neighbours. -/
def yearOf (n : ℤ) : ℤ :=
  let y := 400 * n / 146097
  if n < yearStart y then y - 1
  else if n < yearStart (y + 1) then y
  else y + 1

theorem yearOf_spec : yearStart (yearOf n) ≤ n ∧ n < yearStart (yearOf n + 1) := by
  unfold yearOf
  dsimp only
  -- the estimate is at most one year off
  have hlo : yearStart (400 * n / 146097 - 1) ≤ n := by unfold yearStart; omega
  have hhi : n < yearStart (400 * n / 146097 + 1 + 1) := by unfold yearStart; omega
  split_ifs with h1 h2
  · exact ⟨hlo, by rwa [sub_add_cancel]⟩
  · exact ⟨by omega, h2⟩
  · exact ⟨by omega, hhi⟩

theorem yearOf_eq {n y : ℤ} (h1 : yearStart y ≤ n) (h2 : n < yearStart (y + 1)) : yearOf n = y := by
  obtain ⟨hs1, hs2⟩ := yearOf_spec n
  rcases lt_trichotomy (yearOf n) y with h | h | h
  · have := yearStart_mono (show yearOf n + 1 ≤ y by omega)
    omega
  · exact h
  · have := yearStart_mono (show y + 1 ≤ yearOf n by omega)
    omega

/-! ## Months -/

/-- Months are counted from 0. -/
def monthStart (m : ℕ) : ℕ :=
  [0, 31, 59, 90, 120, 151, 181, 212, 243, 273, 304, 334, 365].getD m 366 + if leap ∧ 2 ≤ m ∧
    m ≤ 12 then 1 else 0

/-- Its days. -/
def monthLength (m : ℕ) : ℕ := monthStart leap (m + 1) - monthStart leap m

/-- The month of a day of the year. -/
def monthOf (doy : ℕ) : ℕ := Nat.findGreatest (fun m => monthStart leap m ≤ doy) 11

theorem monthStart_zero : monthStart leap 0 = 0 := by cases leap <;> rfl

theorem monthStart_twelve : monthStart leap 12 = yearLength leap := by cases leap <;> rfl

theorem monthLength_bounds {m : ℕ} (hm : m < 12) :
    28 ≤ monthLength leap m ∧ monthLength leap m ≤ 31 := by
  have hall : ∀ l : Bool, ∀ k < 12, 28 ≤ monthLength l k ∧ monthLength l k ≤ 31 := by decide
  exact hall leap m hm

theorem monthStart_succ {m : ℕ} (hm : m < 12) :
    monthStart leap (m + 1) = monthStart leap m + monthLength leap m := by
  have := (monthLength_bounds leap hm).1
  unfold monthLength at this ⊢
  omega

theorem monthStart_mono {m m' : ℕ} (h : m ≤ m') (hm : m' ≤ 12) :
    monthStart leap m ≤ monthStart leap m' := by
  induction m', h using Nat.le_induction with
  | base => exact le_rfl
  | succ k _ ih =>
    rw [monthStart_succ leap (by omega)]
    exact (ih (by omega)).trans (Nat.le_add_right _ _)

theorem monthOf_spec {leap : Bool} {doy : ℕ} (h : doy < yearLength leap) :
    monthOf leap doy < 12 ∧ monthStart leap (monthOf leap doy) ≤ doy ∧
    doy < monthStart leap (monthOf leap doy + 1) := by
  have hle : monthOf leap doy ≤ 11 := Nat.findGreatest_le 11
  refine ⟨by omega, ?_, ?_⟩
  · exact Nat.findGreatest_spec (P := fun m => monthStart leap m ≤ doy) (Nat.zero_le 11)
      (by rw [monthStart_zero]; exact Nat.zero_le _)
  · rcases Nat.lt_or_ge (monthOf leap doy) 11 with hlt | hge
    · have := Nat.findGreatest_is_greatest (P := fun m => monthStart leap m ≤ doy)
        (Nat.lt_succ_self (monthOf leap doy)) (by omega)
      exact Nat.lt_of_not_le this
    · rw [show monthOf leap doy = 11 by omega, monthStart_twelve]
      exact h

theorem monthOf_eq {leap : Bool} {doy m : ℕ} (hm : m < 12) (h1 : monthStart leap m ≤ doy)
    (h2 : doy < monthStart leap (m + 1)) : monthOf leap doy = m := by
  have hy : doy < yearLength leap := by
    rw [← monthStart_twelve]
    exact h2.trans_le (monthStart_mono leap (by omega) le_rfl)
  obtain ⟨h12, hs1, hs2⟩ := monthOf_spec hy
  rcases lt_trichotomy (monthOf leap doy) m with h | h | h
  · have := monthStart_mono leap (show monthOf leap doy + 1 ≤ m by omega) (by omega)
    omega
  · exact h
  · have := monthStart_mono leap (show m + 1 ≤ monthOf leap doy by omega) (by omega)
    omega

/-! ## Dates -/

/-- A day of the calendar. -/
structure Date where
  year : ℤ
  /-- from 0 -/
  month : ℕ
  /-- from 1 -/
  mday : ℕ
  month_lt : month < 12
  mday_pos : 0 < mday
  mday_le : mday ≤ monthLength (isLeap year) month

variable (d : Date)

@[ext] theorem Date.ext {a b : Date} (hy : a.year = b.year) (hm : a.month = b.month)
    (hd : a.mday = b.mday) : a = b := by
  cases a; cases b
  subst hy hm hd
  rfl

/-- The number of the day. -/
def day : ℤ := yearStart d.year + (monthStart (isLeap d.year) d.month + (d.mday - 1) : ℕ)

theorem dayOfYear_lt : (n - yearStart (yearOf n)).toNat < yearLength (isLeap (yearOf n)) := by
  obtain ⟨h1, h2⟩ := yearOf_spec n
  rw [yearStart_succ] at h2
  omega

/-- The date of a day. -/
def ofDay : Date where
  year := yearOf n
  month := monthOf (isLeap (yearOf n)) (n - yearStart (yearOf n)).toNat
  mday := (n - yearStart (yearOf n)).toNat
    - monthStart (isLeap (yearOf n))
      (monthOf (isLeap (yearOf n)) (n - yearStart (yearOf n)).toNat) + 1
  month_lt := (monthOf_spec (dayOfYear_lt n)).1
  mday_pos := Nat.succ_pos _
  mday_le := by
    obtain ⟨h12, h₁, h₂⟩ := monthOf_spec (dayOfYear_lt n)
    rw [monthStart_succ _ h12] at h₂
    omega

theorem day_ofDay : day (ofDay n) = n := by
  obtain ⟨-, h1, -⟩ := monthOf_spec (dayOfYear_lt n)
  have hy := (yearOf_spec n).1
  unfold day ofDay
  dsimp only
  omega

theorem dayOfMonth_lt :
    monthStart (isLeap d.year) d.month + (d.mday - 1) <
      monthStart (isLeap d.year) (d.month + 1) := by
  have hpos := d.mday_pos
  have hle := d.mday_le
  rw [monthStart_succ _ d.month_lt]
  omega

theorem day_bounds : yearStart d.year ≤ day d ∧ day d < yearStart (d.year + 1) := by
  have hin := dayOfMonth_lt d
  have h12 := monthStart_mono (isLeap d.year) (show d.month + 1 ≤ 12 from d.month_lt) le_rfl
  rw [monthStart_twelve] at h12
  rw [yearStart_succ]
  unfold day
  omega

theorem ofDay_day : ofDay (day d) = d := by
  have hm := d.month_lt
  have hpos := d.mday_pos
  have hin := dayOfMonth_lt d
  have hyear : yearOf (day d) = d.year := yearOf_eq (day_bounds d).1 (day_bounds d).2
  have hdoy : (day d - yearStart d.year).toNat =
      monthStart (isLeap d.year) d.month + (d.mday - 1) := by
    unfold day
    omega
  have hmonth : monthOf (isLeap d.year) (day d - yearStart d.year).toNat = d.month :=
    monthOf_eq hm (by omega) (by omega)
  refine Date.ext hyear ?_ ?_
  · show monthOf (isLeap (yearOf (day d))) _ = _
    rw [hyear, hmonth]
  · show (day d - yearStart (yearOf (day d))).toNat - monthStart (isLeap (yearOf (day d))) _ + 1 = _
    rw [hyear, hmonth, hdoy]
    omega

theorem mday_succ_ne : (ofDay (n + 1)).mday ≠ (ofDay n).mday := by
  have hn := day_ofDay n
  generalize ofDay n = d at hn ⊢
  subst hn
  have hlen := monthLength_bounds (isLeap d.year) d.month_lt
  have hnext : ∀ e : Date, day e = day d + 1 → e.mday ≠ d.mday →
      (ofDay (day d + 1)).mday ≠ d.mday := by
    intro e he hne
    rwa [← he, ofDay_day]
  rcases Nat.lt_or_ge d.mday (monthLength (isLeap d.year) d.month) with hlt | hge
  · refine hnext ⟨d.year, d.month, d.mday + 1, d.month_lt, Nat.succ_pos _, hlt⟩ ?_
      (Nat.succ_ne_self _)
    have := d.mday_pos
    unfold day
    dsimp only
    omega
  -- the last day of a month, and not its first one
  · have hlast := d.mday_le
    have hone : (1 : ℕ) ≠ d.mday := by omega
    have hfirst := fun y m => (monthLength_bounds (isLeap y) (m := m))
    rcases Nat.lt_or_ge d.month 11 with hm | hm
    · refine hnext ⟨d.year, d.month + 1, 1, by omega, Nat.one_pos, ?_⟩ ?_ hone
      · exact Nat.le_trans (by omega) (hfirst d.year (d.month + 1) (by omega)).1
      · unfold day
        dsimp only
        rw [monthStart_succ _ d.month_lt]
        omega
    · refine hnext ⟨d.year + 1, 0, 1, by omega, Nat.one_pos, ?_⟩ ?_ hone
      · exact Nat.le_trans (by omega) (hfirst (d.year + 1) 0 (by omega)).1
      · have h12 := monthStart_succ (isLeap d.year) d.month_lt
        have hmon : d.month + 1 = 12 := by have := d.month_lt; omega
        rw [hmon, monthStart_twelve] at h12
        unfold day
        dsimp only
        rw [yearStart_succ, monthStart_zero]
        omega

end Calendar

end Lib
