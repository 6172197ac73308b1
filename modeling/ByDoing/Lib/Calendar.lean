import Mathlib.Algebra.Ring.Nat
import Mathlib.Tactic.IntervalCases

namespace Calendar

def isLeap (year : Nat) : Bool :=
  year % 4 = 0 && (year % 100 != 0 || year % 400 = 0)

def daysInMonth (year month : Nat) : Nat :=
  match month with
  | 1 => if isLeap year then 29 else 28
  | 3 | 5 | 8 | 10 => 30
  | _ => 31

def daysInYear (year : Nat) : Nat :=
  if isLeap year then 366 else 365

def daysBeforeMonth (year : Nat) : Nat → Nat
  | 0 => 0
  | month + 1 => daysBeforeMonth year month + daysInMonth year month

def daysBeforeYear : Nat → Nat
  | 0 => 0
  | year + 1 => daysBeforeYear year + daysInYear year

structure DateTime where
  year : Nat
  month : Nat
  day : Nat
  hour : Nat
  minute : Nat
  second : Nat
  month_lt : month < 12
  day_pos : 1 ≤ day
  day_le : day ≤ daysInMonth year month
  hour_lt : hour < 24
  minute_lt : minute < 60
  second_lt : second < 60

theorem daysBeforeMonth_twelve (year : Nat) : daysBeforeMonth year 12 = daysInYear year := by
  cases h : isLeap year with
  | false => simp [daysBeforeMonth, daysInMonth, daysInYear, h]
  | true => simp [daysBeforeMonth, daysInMonth, daysInYear, h]

theorem daysBeforeMonth_mono (year : Nat) {m n : Nat} (h : m ≤ n)
    : daysBeforeMonth year m ≤ daysBeforeMonth year n := by
  induction h with
  | refl => exact Nat.le_refl _
  | step _ ih => exact Nat.le_trans ih (Nat.le_add_right _ _)

theorem daysBeforeYear_mono {m n : Nat} (h : m ≤ n) : daysBeforeYear m ≤ daysBeforeYear n := by
  induction h with
  | refl => exact Nat.le_refl _
  | step _ ih => exact Nat.le_trans ih (Nat.le_add_right _ _)

namespace DateTime

-- The days that have ended before the day of `d`, and the seconds of that day before `d`.
def days (d : DateTime) : Nat :=
  daysBeforeYear d.year + daysBeforeMonth d.year d.month + (d.day - 1)

def secondOfDay (d : DateTime) : Nat :=
  3600 * d.hour + 60 * d.minute + d.second

def seconds (d : DateTime) : Nat :=
  86400 * d.days + d.secondOfDay

def Before (a b : DateTime) : Prop :=
  a.year < b.year ∨ a.year = b.year ∧
    (a.month < b.month ∨ a.month = b.month ∧
      (a.day < b.day ∨ a.day = b.day ∧
        (a.hour < b.hour ∨ a.hour = b.hour ∧
          (a.minute < b.minute ∨ a.minute = b.minute ∧ a.second < b.second))))

instance (a b : DateTime) : Decidable (Before a b) :=
  inferInstanceAs (Decidable (_ ∨ _ ∧ _))

variable {a b d : DateTime}

theorem secondOfDay_lt (d : DateTime) : d.secondOfDay < 86400 := by
  have hhour := d.hour_lt
  have hminute := d.minute_lt
  have hsecond := d.second_lt
  unfold secondOfDay
  omega

theorem dayOfMonth_lt (d : DateTime)
    : daysBeforeMonth d.year d.month + (d.day - 1) < daysBeforeMonth d.year (d.month + 1) := by
  have hpos := d.day_pos
  have hle := d.day_le
  rw [daysBeforeMonth]
  omega

theorem dayOfYear_lt (d : DateTime)
    : daysBeforeMonth d.year d.month + (d.day - 1) < daysInYear d.year := by
  rw [← daysBeforeMonth_twelve]
  apply Nat.lt_of_lt_of_le d.dayOfMonth_lt
  apply daysBeforeMonth_mono
  exact d.month_lt

theorem days_lt_of_year (h : a.year < b.year) : a.days < b.days := by
  have hday := a.dayOfYear_lt
  have hyear := daysBeforeYear_mono h
  rw [daysBeforeYear] at hyear
  unfold days
  omega

theorem days_lt_of_month (hyear : a.year = b.year) (h : a.month < b.month) : a.days < b.days := by
  have hday := a.dayOfMonth_lt
  have hmonth : daysBeforeMonth b.year (a.month + 1) ≤ daysBeforeMonth b.year b.month := by
    apply daysBeforeMonth_mono
    exact h
  rw [hyear] at hday
  unfold days
  rw [hyear]
  omega

theorem days_lt_of_day (hyear : a.year = b.year) (hmonth : a.month = b.month) (h : a.day < b.day)
    : a.days < b.days := by
  have hpos := a.day_pos
  unfold days
  rw [hyear, hmonth]
  omega

theorem seconds_lt_of_days (h : a.days < b.days) : a.seconds < b.seconds := by
  have hlt := a.secondOfDay_lt
  unfold seconds
  omega

theorem seconds_lt (h : Before a b) : a.seconds < b.seconds := by
  unfold Before at h
  rcases h with hyear | ⟨hyear, hmonth | ⟨hmonth, hday | ⟨hday, htime⟩⟩⟩
  . apply seconds_lt_of_days
    exact days_lt_of_year hyear
  . apply seconds_lt_of_days
    exact days_lt_of_month hyear hmonth
  . apply seconds_lt_of_days
    exact days_lt_of_day hyear hmonth hday
  . have hdays : a.days = b.days := by
      unfold days
      rw [hyear, hmonth, hday]
    have hminute := a.minute_lt
    have hsecond := a.second_lt
    unfold seconds secondOfDay
    omega

theorem before_or_before_or_seconds_eq (a b : DateTime)
    : Before a b ∨ Before b a ∨ a.seconds = b.seconds := by
  by_cases heq : a.year = b.year ∧ a.month = b.month ∧ a.day = b.day ∧ a.hour = b.hour
      ∧ a.minute = b.minute ∧ a.second = b.second
  . obtain ⟨hyear, hmonth, hday, hhour, hminute, hsecond⟩ := heq
    right
    right
    unfold seconds days secondOfDay
    rw [hyear, hmonth, hday, hhour, hminute, hsecond]
  . unfold Before
    omega

theorem seconds_le_of_not_before (h : ¬ Before b a) : a.seconds ≤ b.seconds := by
  rcases before_or_before_or_seconds_eq a b with hlt | hlt | heq
  . exact Nat.le_of_lt (seconds_lt hlt)
  . exact absurd hlt h
  . exact Nat.le_of_eq heq

end DateTime
end Calendar
