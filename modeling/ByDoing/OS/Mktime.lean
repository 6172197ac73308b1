import ByDoing.Lib.Calendar
import ByDoing.Lib.Checked

/-!
This module contains `kernel_mktime`, which turns the date of the real time clock into the seconds since
the beginning of 1970, and that it counts as the Gregorian calendar does up to the last second that a
`long` of 32 bits has.
-/

namespace OS.Mktime

open Calendar Checked

inductive Fault where
  | overflow
  | bounds
  deriving DecidableEq

structure Tm where
  tmSec : Int
  tmMin : Int
  tmHour : Int
  tmMday : Int
  tmMon : Int
  tmYear : Int

def MINUTE : Int := 60
def HOUR : Int := 60 * MINUTE
def DAY : Int := 24 * HOUR
def YEAR : Int := 365 * DAY

def months : List Int :=
  [0,
   DAY * (31),
   DAY * (31 + 29),
   DAY * (31 + 29 + 31),
   DAY * (31 + 29 + 31 + 30),
   DAY * (31 + 29 + 31 + 30 + 31),
   DAY * (31 + 29 + 31 + 30 + 31 + 30),
   DAY * (31 + 29 + 31 + 30 + 31 + 30 + 31),
   DAY * (31 + 29 + 31 + 30 + 31 + 30 + 31 + 31),
   DAY * (31 + 29 + 31 + 30 + 31 + 30 + 31 + 31 + 30),
   DAY * (31 + 29 + 31 + 30 + 31 + 30 + 31 + 31 + 30 + 31),
   DAY * (31 + 29 + 31 + 30 + 31 + 30 + 31 + 31 + 30 + 31 + 30)]

def month (tmMon : Int) : Except Fault Int :=
  if 0 ≤ tmMon then
    match months[tmMon.toNat]? with
    | some res => .ok res
    | none => .error .bounds
  else
    .error .bounds

-- An `int` or a `long` of the kernel.
def int (x : Int) : Except Fault Int :=
  checked .overflow x

def adjust (tmMon year res : Int) : Except Fault Int := do
  if tmMon > 1 then
    let year2 ← int (year + 2)
    if year2.tmod 4 ≠ 0 then int (res - DAY) else pure res
  else
    pure res

def kernelMktime (tm : Tm) : Except Fault Int := do
  let year ← int (tm.tmYear - 70)
  -- magic offsets (y+1) needed to get leapyears right.
  let ofYears ← int (YEAR * year)
  let year1 ← int (year + 1)
  let ofLeaps ← int (DAY * year1.tdiv 4)
  let res ← int (ofYears + ofLeaps)
  let ofMonths ← month tm.tmMon
  let res ← int (res + ofMonths)
  let res ← adjust tm.tmMon year res
  let mday ← int (tm.tmMday - 1)
  let ofDays ← int (DAY * mday)
  let res ← int (res + ofDays)
  let ofHours ← int (HOUR * tm.tmHour)
  let res ← int (res + ofHours)
  let ofMinutes ← int (MINUTE * tm.tmMin)
  let res ← int (res + ofMinutes)
  int (res + tm.tmSec)

-- A date as the `struct tm` for it: years since 1900, months since January.
def tmOf (d : DateTime) : Tm where
  tmSec := d.second
  tmMin := d.minute
  tmHour := d.hour
  tmMday := d.day
  tmMon := d.month
  tmYear := (d.year : Int) - 1900

def epoch : DateTime where
  year := 1970
  month := 0
  day := 1
  hour := 0
  minute := 0
  second := 0
  month_lt := by decide
  day_pos := by decide
  day_le := by decide
  hour_lt := by decide
  minute_lt := by decide
  second_lt := by decide

def last : DateTime where
  year := 2038
  month := 0
  day := 19
  hour := 3
  minute := 14
  second := 7
  month_lt := by decide
  day_pos := by decide
  day_le := by decide
  hour_lt := by decide
  minute_lt := by decide
  second_lt := by decide

def sinceEpoch (d : DateTime) : Int :=
  (d.seconds : Int) - epoch.seconds

def InRange (d : DateTime) : Prop :=
  ¬ d.Before epoch ∧ ¬ last.Before d

instance (d : DateTime) : Decidable (InRange d) :=
  inferInstanceAs (Decidable (_ ∧ _))

theorem isLeap_since {n : Nat} (h : n < 130) : isLeap (1970 + n) = decide ((n + 2) % 4 = 0) := by
  unfold isLeap
  rw [Bool.eq_iff_iff]
  simp only [Bool.and_eq_true, Bool.or_eq_true, decide_eq_true_eq, bne_iff_ne, ne_eq]
  omega

theorem daysBeforeYear_since {n : Nat} (h : n ≤ 130)
    : daysBeforeYear (1970 + n) = daysBeforeYear 1970 + 365 * n + (n + 1) / 4 := by
  induction n with
  | zero => rw [Nat.add_zero, Nat.mul_zero, Nat.add_zero]
  | succ n ih =>
    have hleap := isLeap_since (show n < 130 by omega)
    rw [← Nat.add_assoc, daysBeforeYear, ih (by omega), daysInYear, hleap]
    split
    . next hyear =>
      rw [decide_eq_true_eq] at hyear
      omega
    . next hyear =>
      rw [decide_eq_true_eq] at hyear
      omega

theorem month_eq (year : Nat) {m : Nat} (h : m < 12)
    : month m = .ok (DAY * (daysBeforeMonth year m + if 1 < m ∧ isLeap year = false then 1 else 0)) := by
  cases hleap : isLeap year with
  | false =>
    interval_cases m <;> simp [month, months, DAY, daysBeforeMonth, daysInMonth, hleap]
  | true =>
    interval_cases m <;> simp [month, months, DAY, daysBeforeMonth, daysInMonth, hleap]

theorem int_bind {x : Int} {f : Int → Except Fault Int} (hlo : -2147483648 ≤ x) (hhi : x < 2147483648)
    : (int x >>= f) = f x := by
  unfold int
  rw [checked_of_inInt ⟨hlo, hhi⟩]
  rfl

theorem ok_bind {x : Int} {f : Int → Except Fault Int} : ((.ok x : Except Fault Int) >>= f) = f x :=
  rfl

theorem int_of_range {x : Int} (hlo : -2147483648 ≤ x) (hhi : x < 2147483648) : int x = .ok x := by
  unfold int
  exact checked_of_inInt ⟨hlo, hhi⟩

theorem daysBeforeMonth_le (d : DateTime) : daysBeforeMonth d.year d.month ≤ 366 := by
  have hmonth := daysBeforeMonth_mono d.year (Nat.le_of_lt d.month_lt)
  rw [daysBeforeMonth_twelve] at hmonth
  apply Nat.le_trans hmonth
  unfold daysInYear
  split
  . exact Nat.le_refl _
  . exact Nat.le_succ _

theorem sinceEpoch_eq {d : DateTime} {n : Nat} (hyear : d.year = 1970 + n) (hn : n ≤ 130)
    : sinceEpoch d
        =
      86400 * (365 * n + ((n + 1) / 4 : Nat) + daysBeforeMonth d.year d.month + ((d.day : Int) - 1))
        + 3600 * d.hour + 60 * d.minute + d.second := by
  have hepoch : epoch.seconds = 86400 * daysBeforeYear 1970 := by
    simp [DateTime.seconds, DateTime.days, DateTime.secondOfDay, epoch, daysBeforeMonth]
  have hdays : daysBeforeYear d.year = daysBeforeYear 1970 + 365 * n + (n + 1) / 4 := by
    rw [hyear]
    exact daysBeforeYear_since hn
  have hpos := d.day_pos
  unfold sinceEpoch DateTime.seconds DateTime.days DateTime.secondOfDay at *
  rw [hepoch, hdays]
  omega

theorem adjust_eq {d : DateTime} {n : Nat} {res : Int} (hyear : d.year = 1970 + n) (hn : n ≤ 68)
    (hlo : -2147397248 ≤ res) (hhi : res < 2147483648)
    : adjust d.month n res
        =
      .ok (res - DAY * if 1 < d.month ∧ isLeap d.year = false then 1 else 0) := by
  have hleap : isLeap d.year = decide ((n + 2) % 4 = 0) := by
    rw [hyear]
    apply isLeap_since
    omega
  unfold adjust
  split
  . next hmonth =>
    rw [int_bind (by omega) (by omega), hleap]
    split
    . next hmod =>
      rw [Int.tmod_eq_emod_of_nonneg (by omega)] at hmod
      rw [int_of_range (by unfold DAY HOUR MINUTE; omega) (by unfold DAY HOUR MINUTE; omega),
        if_pos ⟨by omega, by rw [decide_eq_false_iff_not]; omega⟩, Int.mul_one]
    . next hmod =>
      rw [Int.tmod_eq_emod_of_nonneg (by omega)] at hmod
      rw [if_neg (by rw [decide_eq_false_iff_not]; omega), Int.mul_zero, Int.sub_zero]
      rfl
  . next hmonth =>
    rw [if_neg (by omega), Int.mul_zero, Int.sub_zero]
    rfl

theorem kernelMktime_of_year {d : DateTime} {n : Nat} (hyear : d.year = 1970 + n) (hn : n ≤ 68)
    (hmonth : n = 68 → d.month = 0) (hlast : sinceEpoch d ≤ 2147483647)
    : kernelMktime (tmOf d) = .ok (sinceEpoch d) := by
  have hsince := sinceEpoch_eq hyear (by omega)
  have hpos := d.day_pos
  have hbefore := daysBeforeMonth_le d
  have hjanuary : d.month = 0 → daysBeforeMonth d.year d.month = 0 := by
    intro h
    rw [h]
    rfl
  have hyears : (tmOf d).tmYear - 70 = n := by
    unfold tmOf
    simp only [hyear]
    omega
  have hleaps : ((n : Int) + 1).tdiv 4 = ((n + 1) / 4 : Nat) := by
    rw [Int.tdiv_eq_ediv_of_nonneg (by omega)]
    omega
  have htable := month_eq d.year d.month_lt
  have hcorrection : 0 ≤ (if 1 < d.month ∧ isLeap d.year = false then (1 : Int) else 0)
      ∧ (if 1 < d.month ∧ isLeap d.year = false then (1 : Int) else 0) ≤ 1
      ∧ (d.month = 0 → (if 1 < d.month ∧ isLeap d.year = false then (1 : Int) else 0) = 0) := by
    split
    . next h => omega
    . next h => omega
  have hadjust := fun res => @adjust_eq d n res hyear hn
  generalize (if 1 < d.month ∧ isLeap d.year = false then (1 : Int) else 0) = correction
    at htable hcorrection hadjust
  obtain ⟨hnonneg, hle, hzero⟩ := hcorrection
  have hmonths : (tmOf d).tmMon = d.month := rfl
  rw [hsince] at hlast ⊢
  generalize daysBeforeMonth d.year d.month = before at *
  -- In the year 2038 no month has passed.
  have hroom : 31536000 * n + 86400 * ((n + 1) / 4 : Nat) + 86400 * (before + correction) < 2147483648 := by
    by_cases heq : n = 68
    . have hbefore := hjanuary (hmonth heq)
      have hcorrection := hzero (hmonth heq)
      omega
    . omega
  clear hsince hbefore hjanuary hzero hmonth hn
  generalize (n + 1) / 4 = leaps at *
  have hday : DAY = 86400 := rfl
  have hhour : HOUR = 3600 := rfl
  have hminute : MINUTE = 60 := rfl
  have hYEAR : YEAR = 31536000 := rfl
  rw [hday] at htable hadjust
  unfold kernelMktime
  simp only [hyears, hmonths, hday, hhour, hminute, hYEAR]
  clear hday hhour hminute hYEAR
  -- every partial sum lies between the beginning of 1970 and the result, or a day above it
  rw [int_bind (by omega) (by omega), int_bind (by omega) (by omega),
    int_bind (by omega) (by omega), hleaps, int_bind (by omega) (by omega),
    int_bind (by omega) (by omega), htable, ok_bind, int_bind (by omega) (by omega),
    hadjust _ (by omega) (by omega), ok_bind]
  have hmday : (tmOf d).tmMday = d.day := rfl
  have hhours : (tmOf d).tmHour = d.hour := rfl
  have hminutes : (tmOf d).tmMin = d.minute := rfl
  have hseconds : (tmOf d).tmSec = d.second := rfl
  rw [hmday, hhours, hminutes, hseconds]
  clear hyears hleaps hle
  rw [int_bind (by omega) (by omega), int_bind (by omega) (by omega), int_bind (by omega) (by omega),
    int_bind (by omega) (by omega), int_bind (by omega) (by omega), int_bind (by omega) (by omega),
    int_bind (by omega) (by omega), int_of_range (by omega) (by omega)]
  apply congrArg Except.ok
  omega

theorem year_of_inRange {d : DateTime} (h : InRange d)
    : ∃ n, d.year = 1970 + n ∧ n ≤ 68 ∧ (n = 68 → d.month = 0) := by
  obtain ⟨hepoch, hlast⟩ := h
  unfold DateTime.Before epoch at hepoch
  unfold DateTime.Before last at hlast
  simp only at hepoch hlast
  refine ⟨d.year - 1970, ?_, ?_, ?_⟩
  . omega
  . omega
  . intro h
    omega

theorem sinceEpoch_last : sinceEpoch last = 2147483647 := by
  rw [sinceEpoch_eq (show last.year = 1970 + 68 from rfl) (by omega)]
  rfl

theorem sinceEpoch_le_of_inRange {d : DateTime} (h : InRange d) : sinceEpoch d ≤ 2147483647 := by
  have hle := DateTime.seconds_le_of_not_before h.right
  rw [← sinceEpoch_last]
  unfold sinceEpoch
  omega

theorem kernelMktime_of_inRange {d : DateTime} (h : InRange d)
    : kernelMktime (tmOf d) = .ok (sinceEpoch d) := by
  obtain ⟨n, hyear, hn, hmonth⟩ := year_of_inRange h
  exact kernelMktime_of_year hyear hn hmonth (sinceEpoch_le_of_inRange h)

/--
From 1970-01-01 00:00:00 to 2038-01-19 03:14:07 `kernel_mktime` returns the seconds that the Gregorian
calendar counts since the first of these, no operation on the way leaves the word, and a later date has
the larger result.
-/
theorem kernelMktime_counts
    : (∀ d, InRange d → kernelMktime (tmOf d) = .ok (sinceEpoch d))
        ∧
      ∀ a b, InRange a → InRange b → a.Before b →
        ∃ x y, kernelMktime (tmOf a) = .ok x ∧ kernelMktime (tmOf b) = .ok y ∧ x < y := by
  constructor
  . intro d h
    exact kernelMktime_of_inRange h
  . intro a b ha hb h
    have hlt := DateTime.seconds_lt h
    refine ⟨sinceEpoch a, sinceEpoch b, kernelMktime_of_inRange ha, kernelMktime_of_inRange hb, ?_⟩
    unfold sinceEpoch
    omega

/--
The count reaches the largest value of the word.
-/
theorem kernelMktime_counts_last : kernelMktime (tmOf last) = .ok 2147483647 := by
  rw [kernelMktime_counts.left last (by decide), sinceEpoch_last]

end OS.Mktime
