/-
  The times of files in the host file system (`hostfs.cpp`).

  The guest has DOS dates and times, in local time; the host has seconds since
  1970, in UTC.  `localtime` and `mktime` are those of a host with a fixed
  offset to UTC.
-/
import Aranym.Lib.Calendar
import Aranym.Lib.Words
import Mathlib.Data.Nat.Bitwise
import Mathlib.Tactic.IntervalCases

namespace Aranym.HostFs

open Lib
open Calendar (day yearStart isLeap ofDay yearStart_mono)
open BitVec hiding lt_trichotomy

/-! ## Clock of the host -/

/-- `struct tm`; `mon` counts from 0 and `year` from 1900. -/
structure Tm where
  sec : ℤ
  min : ℤ
  hour : ℤ
  mday : ℤ
  mon : ℤ
  year : ℤ
  isdst : ℤ
  deriving DecidableEq, Repr

/-- A time zone without summer time, `offset` seconds east of UTC.  `TZ` has at most 24:59:59. -/
structure Zone where
  offset : ℤ
  lower : -90000 < offset
  upper : offset < 90000

/-- `gmtime`, of a number of seconds since 1970. -/
def tmOf (s : ℤ) : Tm :=
  let date := Calendar.ofDay (Calendar.yearStart 1970 + s / 86400)
  { sec := s % 60, min := s / 60 % 60, hour := s / 3600 % 24, mday := date.mday, mon := date.month,
    year := date.year - 1900, isdst := 0 }

variable (z : Zone) (ext3 : Bool) (t : ℤ) (x : Tm)

/-- The number of seconds, also where a field is out of its range. -/
def secondsOf : ℤ :=
  let y := 1900 + x.year + x.mon / 12
  let day := Calendar.yearStart y + Calendar.monthStart (Calendar.isLeap y)
    (x.mon % 12).toNat + x.mday - 1
  86400 * (day - Calendar.yearStart 1970) + 3600 * x.hour + 60 * x.min + x.sec

namespace Zone

/-- Broken-down local time. -/
def localtime : Tm := tmOf (t + z.offset)

/-- Seconds from it. -/
def mktime : ℤ := secondsOf x - z.offset

/-- `tm_gmtoff` of `localtime`. -/
def gmtoff (_t : ℤ) : ℤ := z.offset

end Zone

/-! ## DOS dates and times -/

/-- The word for the time. -/
def timeWord : U16 :=
  ((BitVec.ofInt 32 x.sec &&& 0x3f) >>> 1 ||| (BitVec.ofInt 32 x.min &&& 0x3f) <<< 5 |||
    (BitVec.ofInt 32 x.hour &&& 0x1f) <<< 11).setWidth 16

/-- The word for the date. -/
def dateWord : U16 :=
  (BitVec.ofInt 32 x.mday ||| BitVec.ofInt 32 (x.mon + 1) <<< 5 |||
    BitVec.ofInt 32 (max (x.year - 80) 0) <<< 9).setWidth 16

/-- The time of the guest. -/
def time2dos : U16 := timeWord (z.localtime t)

/-- The date of the guest. -/
def date2dos : U16 := dateWord (z.localtime t)

/-- Both words apart. -/
def datetime2tm (dtm : U32) : Tm where
  mday := (dtm &&& 0x1f).toNat
  mon := (dtm >>> 5 &&& 0x0f).toNat - 1
  year := (dtm >>> 9 &&& 0x7f).toNat + 80
  sec := ((dtm >>> 16 &&& 0x1f) <<< 1).toNat
  min := (dtm >>> 21 &&& 0x3f).toNat
  hour := (dtm >>> 27 &&& 0x1f).toNat
  isdst := -1

/-- Seconds from both. -/
def datetime2utc (dtm : U32) : ℤ := z.mktime (datetime2tm dtm)

/-! ## Calls -/

/-- The times in a `struct stat`. -/
structure FileTimes where
  atime : ℤ
  mtime : ℤ
  ctime : ℤ
  deriving DecidableEq, Repr

/-- `utime` of the host, at the time `now`. -/
def utime (now actime modtime : ℤ) : FileTimes := ⟨actime, modtime, now⟩

/-- `xfs_dev_datime` after `stat`: the times of the file and the long at `datetimep`. -/
def devDatime (now : ℤ) (st : FileTimes) (datetime : U32) (wflag : U16) : FileTimes × U32 :=
  if wflag ≠ 0 then
    let actime : ℤ :=
      if ext3 then datetime.toNat
      else
        let actime := z.mktime (datetime2tm datetime)
        actime - z.gmtoff actime
    (utime now actime actime, datetime)
  else if ext3 then (st, BitVec.ofInt 32 st.mtime)
  else
    let datetime := BitVec.ofInt 32 (st.mtime + z.gmtoff st.mtime)
    (st, time2dos z datetime.toNat ++ date2dos z datetime.toNat)

/-- A time in the structure that `convert_to_xattr` fills. -/
def xattrTime : U32 :=
  if ext3 then BitVec.ofInt 32 t else time2dos z t ++ date2dos z t

/-- `convert_to_xattr`: the longs at 28, 32 and 36. -/
def xattrTimes (st : FileTimes) : U32 × U32 × U32 :=
  (xattrTime z ext3 st.mtime, xattrTime z ext3 st.atime, xattrTime z ext3 st.ctime)

/-- `xfs_fscntl` with `MINT_FUTIME`, with the longs at `arg` or without. -/
def futime (now : ℤ) : Option (U32 × U32) → FileTimes
  | some (actime, modtime) =>
    utime now (datetime2utc z actime - z.gmtoff actime.toNat)
      (datetime2utc z modtime - z.gmtoff modtime.toNat)
  | none => utime now now now

/-! ## The calendar -/

/-- The fields are those of a date and time of day. -/
structure Tm.Valid (x : Tm) : Prop where
  sec : 0 ≤ x.sec ∧ x.sec < 60
  min : 0 ≤ x.min ∧ x.min < 60
  hour : 0 ≤ x.hour ∧ x.hour < 24
  mon : 0 ≤ x.mon ∧ x.mon < 12
  mday : 1 ≤ x.mday ∧ x.mday ≤ Calendar.monthLength (Calendar.isLeap (1900 + x.year)) x.mon.toNat

/-- Its date. -/
def Tm.Valid.date {x : Tm} (h : x.Valid) : Calendar.Date where
  year := 1900 + x.year
  month := x.mon.toNat
  mday := x.mday.toNat
  month_lt := by have := h.mon; omega
  mday_pos := by have := h.mday; omega
  mday_le := by have := h.mday; omega

variable {x : Tm}

theorem secondsOf_valid (h : x.Valid) : secondsOf x =
    86400 * (day h.date - yearStart 1970) + 3600 * x.hour + 60 * x.min + x.sec := by
  have hmon := h.mon
  have hmday := h.mday.1
  have hy : 1900 + x.year + x.mon / 12 = 1900 + x.year := by omega
  have hm : x.mon % 12 = x.mon := by omega
  have hday : day h.date = yearStart (1900 + x.year)
      + Calendar.monthStart (isLeap (1900 + x.year)) x.mon.toNat + x.mday - 1 := by
    simp only [day, Tm.Valid.date]
    omega
  simp only [secondsOf, hy, hm, hday]

theorem tmOf_secondsOf (h : x.Valid) : tmOf (secondsOf x) = { x with isdst := 0 } := by
  have hsec := h.sec
  have hmin := h.min
  have hhour := h.hour
  have hs := secondsOf_valid h
  have hdate : ofDay (yearStart 1970 + secondsOf x / 86400) = h.date := by
    rw [← Calendar.ofDay_day h.date]
    congr 1
    omega
  unfold tmOf
  dsimp only
  rw [hdate]
  have hmday := h.mday
  have hmon := h.mon
  have h1 : secondsOf x % 60 = x.sec := by omega
  have h2 : secondsOf x / 60 % 60 = x.min := by omega
  have h3 : secondsOf x / 3600 % 24 = x.hour := by omega
  have h4 : ((h.date).mday : ℤ) = x.mday := by simp only [Tm.Valid.date]; omega
  have h5 : ((h.date).month : ℤ) = x.mon := by simp only [Tm.Valid.date]; omega
  have h6 : (h.date).year - 1900 = x.year := by simp only [Tm.Valid.date]; omega
  rw [h1, h2, h3, h4, h5, h6]

/-! ## Words -/

theorem toNat_field {v : ℤ} (k : ℕ) (hk : k ≤ 31) (h0 : 0 ≤ v) (h1 : v < 2 ^ k) :
    ((BitVec.ofInt 32 v &&& BitVec.ofNat 32 (2 ^ k - 1)).toNat : ℤ) = v := by
  obtain ⟨n, rfl⟩ := Int.eq_ofNat_of_zero_le h0
  have hn : n < 2 ^ k := by exact_mod_cast h1
  have hle : 2 ^ k ≤ 2 ^ 31 := Nat.pow_le_pow_right (by norm_num) hk
  rw [ofInt_natCast, toNat_and, toNat_ofNat, toNat_ofNat,
    Nat.mod_eq_of_lt (show n < 2 ^ 32 by omega),
    Nat.mod_eq_of_lt (show 2 ^ k - 1 < 2 ^ 32 by omega),
    Nat.and_two_pow_sub_one_eq_mod, Nat.mod_eq_of_lt hn]

theorem toNat_timeWord (hs : 0 ≤ x.sec ∧ x.sec < 60) (hm : 0 ≤ x.min ∧ x.min < 60)
    (hh : 0 ≤ x.hour ∧ x.hour < 24) :
    ((timeWord x).toNat : ℤ) = x.sec / 2 + 32 * x.min + 2048 * x.hour := by
  have es := toNat_field 6 (by norm_num) hs.1 (by omega)
  have em := toNat_field 6 (by norm_num) hm.1 (by omega)
  have eh := toNat_field 5 (by norm_num) hh.1 (by omega)
  unfold timeWord
  generalize hs' : (BitVec.ofInt 32 x.sec &&& 0x3f) = bs
  generalize hm' : (BitVec.ofInt 32 x.min &&& 0x3f) = bm
  generalize hh' : (BitVec.ofInt 32 x.hour &&& 0x1f) = bh
  simp only [Nat.reducePow, Nat.reduceSub, ofNat_eq_ofNat] at es em eh hs' hm' hh'
  rw [hs'] at es
  rw [hm'] at em
  rw [hh'] at eh
  have hlow : bs.toNat >>> 1 < 2 ^ 5 := by rw [Nat.shiftRight_one]; omega
  have hmid : bm.toNat <<< 5 + bs.toNat >>> 1 < 2 ^ 11 := by rw [Nat.shiftLeft_eq]; omega
  have hor : (bs >>> 1 ||| bm <<< 5 ||| bh <<< 11).toNat =
      bh.toNat <<< 11 + (bm.toNat <<< 5 + bs.toNat >>> 1) := by
    have hb5 : bm.toNat <<< 5 < 2 ^ 32 := by rw [Nat.shiftLeft_eq]; omega
    have hb11 : bh.toNat <<< 11 < 2 ^ 32 := by rw [Nat.shiftLeft_eq]; omega
    rw [Nat.shiftLeft_add_eq_or_of_lt hmid, Nat.shiftLeft_add_eq_or_of_lt hlow, toNat_or, toNat_or,
      toNat_ushiftRight, toNat_shiftLeft, toNat_shiftLeft, Nat.mod_eq_of_lt hb5,
      Nat.mod_eq_of_lt hb11, Nat.or_comm (bs.toNat >>> 1), Nat.or_comm]
  rw [toNat_setWidth, hor, Nat.shiftRight_one, Nat.shiftLeft_eq, Nat.shiftLeft_eq]
  omega

theorem dateWord_mday (x : Tm) :
    dateWord x &&& 0x1f = (BitVec.ofInt 32 x.mday &&& 0x1f).setWidth 16 := by
  refine eq_of_getLsbD_eq fun i hi => ?_
  simp only [dateWord, getLsbD_and, getLsbD_setWidth, getLsbD_or, getLsbD_shiftLeft]
  interval_cases i <;> simp

theorem toNat_mday (h : 0 ≤ x.mday ∧ x.mday < 32) : ((dateWord x &&& 0x1f).toNat : ℤ) = x.mday := by
  have e : ((BitVec.ofInt 32 x.mday &&& 0x1f).toNat : ℤ) = x.mday :=
    toNat_field 5 (by norm_num) h.1 (by omega)
  rw [dateWord_mday, toNat_setWidth]
  omega

theorem timeWord_datetime2tm (dt : U32) : timeWord (datetime2tm dt) = (dt >>> 16).setWidth 16 := by
  simp only [timeWord, datetime2tm, ofInt_natCast, ofNat_toNat, setWidth_eq]
  refine eq_of_getLsbD_eq fun i hi => ?_
  interval_cases i <;> simp

theorem dateWord_datetime2tm (dt : U32) : dateWord (datetime2tm dt) = dt.setWidth 16 := by
  have hmon : (datetime2tm dt).mon + (1 : ℤ) = ((dt >>> 5 &&& 0x0f).toNat : ℤ) := by
    simp only [datetime2tm]
    omega
  have hyear : max ((datetime2tm dt).year - 80) 0 = ((dt >>> 9 &&& 0x7f).toNat : ℤ) := by
    simp only [datetime2tm]
    omega
  rw [dateWord, hmon, hyear]
  simp only [datetime2tm, ofInt_natCast, ofNat_toNat, setWidth_eq]
  refine eq_of_getLsbD_eq fun i hi => ?_
  interval_cases i <;> simp

/-- The date and time of `x` as the guest has it. -/
def dosOf (x : Tm) : U32 := timeWord x ++ dateWord x

theorem dosOf_datetime2tm (dt : U32) : dosOf (datetime2tm dt) = dt := by
  rw [dosOf, timeWord_datetime2tm, dateWord_datetime2tm]
  refine eq_of_getLsbD_eq fun i hi => ?_
  rw [getLsbD_append]
  split_ifs with h
  · simp [h]
  · simp only [getLsbD_setWidth, getLsbD_ushiftRight]
    rw [show 16 + (i - 16) = i by omega]
    simp
    omega

theorem dosOf_inj {y : Tm} (h : dosOf x = dosOf y) :
    timeWord x = timeWord y ∧ dateWord x = dateWord y :=
  bitVec_append_inj h

/-! ## Round trips -/

/-- A date and time that exists. -/
def ValidDos (dt : U32) : Prop := (datetime2tm dt).Valid

/-- The date and time on a clock that shows 1970 at 0. -/
def dosSeconds (dt : U32) : ℤ := secondsOf (datetime2tm dt)

section
variable {dt : U32} (h : ValidDos dt)
include h

theorem dosOf_dosSeconds : dosOf (tmOf (dosSeconds dt)) = dt := by
  rw [dosSeconds, tmOf_secondsOf h]
  exact dosOf_datetime2tm dt

theorem dosSeconds_even : dosSeconds dt % 2 = 0 := by
  have hs := secondsOf_valid h
  have hsec : (datetime2tm dt).sec % 2 = 0 := by
    simp only [datetime2tm, toNat_shiftLeft, Nat.shiftLeft_eq]
    omega
  unfold dosSeconds
  omega

theorem dosSeconds_bounds : 90000 < dosSeconds dt ∧ dosSeconds dt < 2 ^ 33 - 90000 := by
  have hs := secondsOf_valid h
  have hsec := h.sec
  have hmin := h.min
  have hhour := h.hour
  have hy : 1980 ≤ h.date.year ∧ h.date.year ≤ 2107 := by
    have hbits : (dt >>> 9 &&& 0x7f).toNat ≤ 0x7f := by
      exact Nat.and_le_right
    show 1980 ≤ 1900 + (datetime2tm dt).year ∧ 1900 + (datetime2tm dt).year ≤ 2107
    simp only [datetime2tm]
    omega
  have hlo := yearStart_mono hy.1
  have hhi := yearStart_mono (show h.date.year + 1 ≤ 2108 by omega)
  have hin := Calendar.day_bounds h.date
  rw [show yearStart 1980 = 723180 from rfl] at hlo
  rw [show yearStart 2108 = 769931 from rfl] at hhi
  rw [show yearStart 1970 = 719528 from rfl] at hs
  unfold dosSeconds
  omega

end

theorem timeWord_tmOf (s : ℤ) :
    ((timeWord (tmOf s)).toNat : ℤ) = s % 60 / 2 + 32 * (s / 60 % 60) + 2048 * (s / 3600 % 24) :=
  toNat_timeWord (x := tmOf s) (by simp only [tmOf]; omega) (by simp only [tmOf]; omega)
    (by simp only [tmOf]; omega)

variable {s s' : ℤ}

/-- Times of day with the same word differ in the last bit at most. -/
theorem timeOfDay_eq (h : timeWord (tmOf s) = timeWord (tmOf s')) :
    s % 86400 / 2 = s' % 86400 / 2 := by
  have h1 := timeWord_tmOf s
  have h2 := timeWord_tmOf s'
  rw [h] at h1
  omega

theorem mday_eq (h : dateWord (tmOf s) = dateWord (tmOf s')) : (tmOf s).mday = (tmOf s').mday := by
  have hle : ∀ t, 0 ≤ (tmOf t).mday ∧ (tmOf t).mday < 32 := by
    intro t
    have hd := (ofDay (yearStart 1970 + t / 86400)).mday_le
    have hb := Calendar.monthLength_bounds (isLeap (ofDay (yearStart 1970 + t / 86400)).year)
      (ofDay (yearStart 1970 + t / 86400)).month_lt
    simp only [tmOf]
    omega
  rw [← toNat_mday (hle s), ← toNat_mday (hle s'), h]

theorem mday_ne (h : s' / 86400 = s / 86400 + 1) : (tmOf s').mday ≠ (tmOf s).mday := by
  have hne := Calendar.mday_succ_ne (yearStart 1970 + s / 86400)
  intro heq
  simp only [tmOf, h, ← Int.add_assoc, Nat.cast_inj] at heq
  exact hne heq

/-- Within a day or so only the second that the word leaves out has the same date and time. -/
theorem dosOf_eq_iff (heven : s % 2 = 0) (h1 : s - 90000 < s') (h2 : s' < s + 90000) :
    dosOf (tmOf s') = dosOf (tmOf s) ↔ s' = s ∨ s' = s + 1 := by
  constructor
  · intro h
    obtain ⟨ht, hd⟩ := dosOf_inj h
    have htod := timeOfDay_eq ht
    have hmd := mday_eq hd
    rcases lt_trichotomy (s' / 86400) (s / 86400) with hlt | heq | hgt
    · exact absurd hmd.symm (mday_ne (by omega))
    · omega
    · exact absurd hmd (mday_ne (by omega))
  · rintro (rfl | rfl)
    · rfl
    · have hday : (s + 1) / 86400 = s / 86400 := by omega
      have hdate : dateWord (tmOf (s + 1)) = dateWord (tmOf s) := by
        simp only [dateWord, tmOf, hday]
      have htime : timeWord (tmOf (s + 1)) = timeWord (tmOf s) := by
        have h1 := timeWord_tmOf s
        have h2 := timeWord_tmOf (s + 1)
        exact BitVec.eq_of_toNat_eq (by omega)
      rw [dosOf, dosOf, htime, hdate]

theorem dosOf_wrap_ne (s : ℤ) : dosOf (tmOf (s - 2 ^ 32)) ≠ dosOf (tmOf s) := by
  intro h
  have := timeOfDay_eq (dosOf_inj h).1
  omega

/-! ## Setting and reading the time of a file -/

/-- The calls that set the modification time to a date and time. -/
inductive TimeSetter
  | devDatime (wflag : U16) (h : wflag ≠ 0)
  | futime (actime : U32)

/-- The calls that read it. -/
inductive TimeReader
  | devDatime
  | getxattr

section
variable (z : Zone) (now : ℤ) (st : FileTimes)

/-- Sets a time. -/
def setTime (dt : U32) : TimeSetter → FileTimes
  | .devDatime wflag _ => (devDatime z false now st dt wflag).1
  | .futime actime => futime z now (some (actime, dt))

/-- Reads a time. -/
def readTime (buf : U32) : TimeReader → U32
  | .devDatime => (devDatime z false now st buf 0).2
  | .getxattr => (xattrTimes z false st).1

theorem mtime_setTime (dt : U32) (c : TimeSetter) :
    (setTime z now st dt c).mtime = dosSeconds dt - z.offset - z.offset := by
  cases c with
  | devDatime wflag h =>
    simp only [setTime, devDatime, if_pos h]
    rfl
  | futime actime => rfl

theorem readTime_getxattr (buf : U32) :
    readTime z now st buf .getxattr = dosOf (tmOf (st.mtime + z.offset)) := rfl

theorem readTime_devDatime (buf : U32) :
    readTime z now st buf .devDatime =
      dosOf (tmOf ((st.mtime + z.offset) % 2 ^ 32 + z.offset)) := by
  have hmod : ((BitVec.ofInt 32 (st.mtime + z.offset)).toNat : ℤ) =
      (st.mtime + z.offset) % 2 ^ 32 := by
    rw [toNat_ofInt]
    omega
  rw [← hmod]
  rfl

end

section
variable {dt : U32} (h : ValidDos dt) (z : Zone)
include h

theorem getxattr_iff : dosOf (tmOf (dosSeconds dt - z.offset)) = dt ↔ z.offset = 0 ∨
    z.offset = -1 := by
  have hl := z.lower
  have hu := z.upper
  have hiff : dosOf (tmOf (dosSeconds dt - z.offset)) = dosOf (tmOf (dosSeconds dt)) ↔
      dosSeconds dt - z.offset = dosSeconds dt ∨ dosSeconds dt - z.offset = dosSeconds dt + 1 :=
    dosOf_eq_iff (dosSeconds_even h) (by omega) (by omega)
  rw [dosOf_dosSeconds h] at hiff
  rw [hiff]
  omega

theorem devDatime_iff :
    dosOf (tmOf ((dosSeconds dt - z.offset) % 2 ^ 32 + z.offset)) = dt ↔
    dosSeconds dt - z.offset < 2 ^ 32 := by
  have hl := z.lower
  have hu := z.upper
  have hb := dosSeconds_bounds h
  constructor
  · intro heq
    by_contra hge
    have hmod : (dosSeconds dt - z.offset) % 2 ^ 32 + z.offset = dosSeconds dt - 2 ^ 32 := by omega
    rw [hmod] at heq
    exact dosOf_wrap_ne _ (heq.trans (dosOf_dosSeconds h).symm)
  · intro hlt
    rw [show (dosSeconds dt - z.offset) % 2 ^ 32 + z.offset = dosSeconds dt by omega]
    exact dosOf_dosSeconds h

end

/-- **File times.**  A date and time that is set with either call is read back by both if and only
    if the host has no offset to UTC (less than two seconds, to be exact) and its seconds fit into
    32 bits. -/
theorem datime_round_trip_iff (z : Zone) (now : ℤ) (st : FileTimes) (buf : U32) {dt : U32}
    (h : ValidDos dt) :
    (∀ (c : TimeSetter) (r : TimeReader), readTime z now (setTime z now st dt c) buf r = dt) ↔
      (z.offset = 0 ∨ z.offset = -1) ∧ dosSeconds dt < 2 ^ 32 := by
  have heven := dosSeconds_even h
  have hx := getxattr_iff h z
  have hd := devDatime_iff h z
  have hmtime : ∀ c, (setTime z now st dt c).mtime + z.offset = dosSeconds dt - z.offset := by
    intro c
    rw [mtime_setTime]
    omega
  constructor
  · intro hall
    have h1 := hall (.futime 0) .getxattr
    have h2 := hall (.futime 0) .devDatime
    rw [readTime_getxattr, hmtime, hx] at h1
    rw [readTime_devDatime, hmtime, hd] at h2
    exact ⟨h1, by omega⟩
  · rintro ⟨hoff, hlt⟩ c r
    cases r with
    | getxattr => rw [readTime_getxattr, hmtime, hx]; exact hoff
    | devDatime => rw [readTime_devDatime, hmtime, hd]; omega

/-- 2026-11-16 12:34:56 on a host in UTC -/
theorem utc_round_trip : ValidDos 0x645c5d70 ∧ ∀ (c : TimeSetter) (r : TimeReader),
    readTime ⟨0, by decide, by decide⟩ 0
      (setTime ⟨0, by decide, by decide⟩ 0 ⟨0, 0, 0⟩ 0x645c5d70 c) 0 r =
      0x645c5d70 := by
  have h : ValidDos 0x645c5d70 := ⟨by decide, by decide, by decide, by decide, by decide⟩
  exact ⟨h, (datime_round_trip_iff ⟨0, by decide, by decide⟩ 0 ⟨0, 0, 0⟩ 0 h).2
    ⟨.inl rfl, by decide +kernel⟩⟩

/-- One hour east of UTC `xfs_getxattr` shows a time that is one hour early. -/
theorem getxattr_one_hour_early : ValidDos 0x645c5d70 ∧ readTime ⟨3600, by decide, by decide⟩ 0
      (setTime ⟨3600, by decide, by decide⟩ 0 ⟨0, 0, 0⟩ 0x645c5d70
        (.devDatime 1 (by decide))) 0 .getxattr ≠
      0x645c5d70 :=
  ⟨⟨by decide, by decide, by decide, by decide, by decide⟩, by decide +kernel⟩

end Aranym.HostFs
