import Mathlib.Tactic.IntervalCases
import Mathlib.Tactic.Linarith

/-!
# The proleptic Gregorian calendar

Years are counted from 1, months from 1 to 12 and days from 1.  The day of the
week of a date is found by counting: 1 January of the year 1 is a Monday, and
every day goes on by one.  The sums over years and over months are given in
closed form, which is what formulas for the day of the week compute.
-/

namespace Calendar

/-- Every fourth year, but of the hundredth years every fourth. -/
def IsLeap (year : Nat) : Prop := 4 ∣ year ∧ (¬ 100 ∣ year ∨ 400 ∣ year)

instance (year : Nat) : Decidable (IsLeap year) :=
  inferInstanceAs (Decidable (_ ∧ _))

/-- Number of days of a year. -/
def yearLength (year : Nat) : Nat := if IsLeap year then 366 else 365

/-- Number of days of a month. -/
def monthLength (year : Nat) : (month : Nat) → Nat
  | 1 | 3 | 5 | 7 | 8 | 10 | 12 => 31
  | 4 | 6 | 9 | 11 => 30
  | 2 => if IsLeap year then 29 else 28
  | _ => 0

theorem monthLength_le (year month : Nat) : monthLength year month ≤ 31 := by
  unfold monthLength
  split <;> try decide
  split <;> decide

/-- Number of days of the years up to this one. -/
def daysOfYears : (year : Nat) → Nat
  | 0 => 0
  | year + 1 => daysOfYears year + yearLength (year + 1)

/-- Number of days of the months of a year up to this one. -/
def daysOfMonths (year : Nat) : (month : Nat) → Nat
  | 0 => 0
  | month + 1 => daysOfMonths year month + monthLength year (month + 1)

/-- A date of the calendar. -/
structure Date where
  /-- The year. -/
  year : Nat
  /-- The month. -/
  month : Nat
  /-- The day of the month. -/
  day : Nat
  /-- There is no year 0. -/
  year_pos : 1 ≤ year
  /-- There is no month 0. -/
  month_pos : 1 ≤ month
  /-- A year has twelve months. -/
  month_le : month ≤ 12
  /-- There is no day 0. -/
  day_pos : 1 ≤ day
  /-- The month has that day. -/
  day_le : day ≤ monthLength year month

/-- Number of days before a date, from 1 January of the year 1 on. -/
def Date.daysBefore (date : Date) : Nat :=
  daysOfYears (date.year - 1) + daysOfMonths date.year (date.month - 1) +
    (date.day - 1)

/-- The day of the week, 0 for Sunday. -/
def Date.weekday (date : Date) : Nat := (1 + date.daysBefore) % 7

/-- Number of leap years up to this one. -/
def leapYears (year : Nat) : Nat := year / 4 - year / 100 + year / 400

theorem leapYears_succ (year : Nat) :
    leapYears (year + 1) =
      leapYears year + if IsLeap (year + 1) then 1 else 0 := by
  have fewer : year / 100 ≤ year / 4 :=
    Nat.div_le_div_left (by decide) (by decide)
  have fourth_of_hundredth : 100 ∣ year + 1 → 4 ∣ year + 1 :=
    Nat.dvd_trans (by decide)
  have hundredth_of_rest : 400 ∣ year + 1 → 100 ∣ year + 1 :=
    Nat.dvd_trans (by decide)
  unfold leapYears IsLeap
  rw [Nat.succ_div, Nat.succ_div, Nat.succ_div]
  by_cases fourth : 4 ∣ year + 1
  · by_cases hundredth : 100 ∣ year + 1
    · by_cases rest : 400 ∣ year + 1
      · simp only [fourth, hundredth, rest, if_true, or_true, and_true]
        omega
      · simp only [fourth, hundredth, rest, if_true, if_false, not_true, or_self,
          and_false]
        omega
    · have never := mt hundredth_of_rest hundredth
      simp only [fourth, hundredth, never, if_true, if_false, not_false_iff,
        true_or, and_true]
      omega
  · have never := mt fourth_of_hundredth fourth
    simp only [fourth, never, mt hundredth_of_rest never, if_false, false_and]
    omega

/-- Every year has 365 days, and the leap years have one more. -/
theorem daysOfYears_eq (year : Nat) :
    daysOfYears year = 365 * year + leapYears year := by
  induction year with
  | zero => rfl
  | succ year inductionHypothesis =>
      rw [daysOfYears, inductionHypothesis, leapYears_succ, yearLength]
      split <;> omega

/-- Number of days of the months up to this one in a year that is not a leap
year. -/
def commonDays : (month : Nat) → Nat
  | 0 => 0
  | 1 => 31
  | 2 => 59
  | 3 => 90
  | 4 => 120
  | 5 => 151
  | 6 => 181
  | 7 => 212
  | 8 => 243
  | 9 => 273
  | 10 => 304
  | 11 => 334
  | _ => 365

/-- The leap day comes at the end of February. -/
theorem daysOfMonths_eq
    (year : Nat)
    {month : Nat}
    (small : month ≤ 12) :
    daysOfMonths year month =
      commonDays month + if 2 ≤ month ∧ IsLeap year then 1 else 0 := by
  by_cases leap : IsLeap year
  · interval_cases month <;>
      simp [daysOfMonths, monthLength, commonDays, leap]
  · interval_cases month <;>
      simp [daysOfMonths, monthLength, commonDays, leap]

/-- 1 January 2000 is a Saturday. -/
example :
    (⟨2000, 1, 1, by decide, by decide, by decide, by decide, by decide⟩ :
      Date).weekday = 6 := by
  decide +kernel

end Calendar
