import PivotOs.Library.Calendar
import Mathlib.Tactic.IntervalCases

/-!
# The day of the week

`kernel/rtc.c` stores the date that the clock shows, with the day of the week
that `get_dow` computes.  The formula of `get_dow` is right, but its parameter
`dom` has eight bits, and the year is added to it: the sum loses a multiple of
256, and 256 is not a multiple of 7.
-/

namespace PivotOs
namespace Rtc

open Calendar (Date)

/-! ## The functions -/

/-- `get_dow`.  The conditional expression is an `int`; storing it in `dom`
keeps eight bits of the sum. -/
def getDow (y : BitVec 16) (m dom : BitVec 8) : BitVec 8 :=
  let added : Int := if m.toNat < 3 then y.toNat else y.toNat - 2
  let dom : BitVec 8 := BitVec.ofInt 8 (dom.toNat + added)
  let y : BitVec 16 := if m.toNat < 3 then y - 1#16 else y
  BitVec.ofInt 8
    (((23 * m.toNat : Int).tdiv 9 + dom.toNat + 4 + (y.toNat : Int).tdiv 4 -
      (y.toNat : Int).tdiv 100 + (y.toNat : Int).tdiv 400).tmod 7 + 1)

/-- `bcd2bin`. -/
def bcd2bin (bcdNum : BitVec 32) : BitVec 32 :=
  (bcdNum >>> 4) * 10#32 + (bcdNum &&& 0xF#32)

/-- `time_t`. -/
structure Time where
  /-- `century`. -/
  century : BitVec 8
  /-- `year`, of the century. -/
  year : BitVec 8
  /-- `month`. -/
  month : BitVec 8
  /-- `dom`. -/
  dom : BitVec 8
  /-- `dow`, 1 for Sunday. -/
  dow : BitVec 8
  /-- `hour`. -/
  hour : BitVec 8
  /-- `minute`. -/
  minute : BitVec 8
  /-- `second`. -/
  second : BitVec 8

/-- A field of the time, from what its register holds. -/
def timeField (bcd : Bool) (value : BitVec 8) : BitVec 8 :=
  if bcd then (bcd2bin (value.setWidth 32)).setWidth 8 else value

/-- What `rtc_handler` stores in `global_time` when the registers of the clock
hold these values. -/
def rtcHandlerTime (bcd : Bool) (register : BitVec 8 → BitVec 8) : Time :=
  let century := timeField bcd (register 0x32#8)
  let century := if century ≠ 0#8 then century else 20#8
  let year := timeField bcd (register 0x9#8)
  let month := timeField bcd (register 0x8#8)
  let dom := timeField bcd (register 0x7#8)
  { century := century
    year := year
    month := month
    dom := dom
    dow := getDow (BitVec.ofNat 16 (century.toNat * 100 + year.toNat)) month dom
    hour := timeField bcd (register 0x4#8)
    minute := timeField bcd (register 0x2#8)
    second := timeField bcd (register 0x0#8) }

/-! ## The formula -/

/-- The new value of `dom`, as a sum without a limit. -/
def daySum (year month day : Nat) : Nat :=
  if month < 3 then day + year else day + year - 2

/-- The new value of `y`. -/
def countedYear (year month : Nat) : Nat :=
  if month < 3 then year - 1 else year

/-- The day of the week that `get_dow` uses for a value of `dom`, 0 for
Sunday. -/
def dowOf (year month dom : Nat) : Nat :=
  (23 * month / 9 + dom + 4 + Calendar.leapYears (countedYear year month)) % 7

/-- The days of the months before, modulo 7, as the formula has them. -/
theorem month_congr
    {month : Nat}
    (positive : 1 ≤ month)
    (small : month ≤ 12) :
    (23 * month / 9 + if month < 3 then 5 else 3) % 7 =
      Calendar.commonDays (month - 1) % 7 := by
  interval_cases month <;> rfl

/-- Without a limit on `dom`, the formula gives the day of the week. -/
theorem dowOf_daySum (date : Date) :
    dowOf date.year date.month (daySum date.year date.month date.day) =
      date.weekday := by
  obtain ⟨year, month, day, year_pos, month_pos, month_le, day_pos, -⟩ := date
  have months := month_congr month_pos month_le
  have small : month - 1 ≤ 12 := by omega
  have counted : Calendar.leapYears year =
      Calendar.leapYears (year - 1) + if Calendar.IsLeap year then 1 else 0 := by
    have step := Calendar.leapYears_succ (year - 1)
    rwa [Nat.sub_add_cancel year_pos] at step
  simp only [Date.weekday, Date.daysBefore, dowOf, daySum, countedYear,
    Calendar.daysOfYears_eq, Calendar.daysOfMonths_eq year small]
  by_cases early : month < 3
  · -- The leap day of this year is still to come.
    have before : ¬ (2 ≤ month - 1 ∧ Calendar.IsLeap year) := by omega
    rw [if_pos early] at months
    rw [if_pos early, if_pos early, if_neg before]
    omega
  · have behind : 2 ≤ month - 1 := by omega
    rw [if_neg early] at months
    simp only [if_neg early, behind, true_and]
    omega

/-! ## Eight bits for the sum -/

/-- The sum of `get_dow`, whose parts are not negative. -/
theorem dow_sum_eq (month dom y : Nat) :
    (23 * month : Int).tdiv 9 + dom + 4 + (y : Int).tdiv 4 -
        (y : Int).tdiv 100 + (y : Int).tdiv 400 =
      ((23 * month / 9 + dom + 4 + Calendar.leapYears y : Nat) : Int) := by
  have ninth : (23 * month : Int).tdiv 9 = ((23 * month / 9 : Nat) : Int) := rfl
  have fourth : (y : Int).tdiv 4 = ((y / 4 : Nat) : Int) := rfl
  have hundredth : (y : Int).tdiv 100 = ((y / 100 : Nat) : Int) := rfl
  have rest : (y : Int).tdiv 400 = ((y / 400 : Nat) : Int) := rfl
  rw [ninth, fourth, hundredth, rest, Calendar.leapYears]
  omega

/-- What `get_dow` returns for numbers that fit its parameters. -/
theorem getDow_toNat
    {year month day : Nat}
    (positive : 1 ≤ year)
    (fits : year < 2 ^ 16)
    (month_lt : month < 2 ^ 8)
    (day_pos : 1 ≤ day)
    (day_lt : day < 2 ^ 8) :
    (getDow (BitVec.ofNat 16 year) (BitVec.ofNat 8 month)
        (BitVec.ofNat 8 day)).toNat =
      dowOf year month (daySum year month day % 256) + 1 := by
  have year_eq : (BitVec.ofNat 16 year).toNat = year := Nat.mod_eq_of_lt fits
  have month_eq : (BitVec.ofNat 8 month).toNat = month :=
    Nat.mod_eq_of_lt month_lt
  have day_eq : (BitVec.ofNat 8 day).toNat = day := Nat.mod_eq_of_lt day_lt
  have kept : (BitVec.ofInt 8 ((day : Int) +
      if month < 3 then (year : Int) else year - 2)).toNat =
        daySum year month day % 256 := by
    rw [BitVec.toNat_ofInt, daySum]
    split <;> omega
  have counted : (if month < 3 then BitVec.ofNat 16 year - 1#16
      else BitVec.ofNat 16 year).toNat = countedYear year month := by
    unfold countedYear
    split
    · rw [BitVec.toNat_sub, year_eq, BitVec.toNat_ofNat]
      omega
    · exact year_eq
  simp only [getDow, year_eq, month_eq, day_eq, kept, counted]
  have small : dowOf year month (daySum year month day % 256) < 7 :=
    Nat.mod_lt _ (by decide)
  rw [dow_sum_eq]
  change (BitVec.ofInt 8 ((dowOf year month (daySum year month day % 256) + 1 :
    Nat) : Int)).toNat = _
  rw [BitVec.ofInt_natCast, BitVec.toNat_ofNat]
  exact Nat.mod_eq_of_lt (by omega)

/-- `get_dow` returns the day of the week of a date, 1 for Sunday. -/
def DowCorrect (date : Date) : Prop :=
  getDow (BitVec.ofNat 16 date.year) (BitVec.ofNat 8 date.month)
      (BitVec.ofNat 8 date.day) =
    BitVec.ofNat 8 (date.weekday + 1)

instance (date : Date) : Decidable (DowCorrect date) :=
  inferInstanceAs (Decidable (_ = _))

/-- What dropping multiples of 256 does to the day of the week. -/
theorem dowOf_mod_256 (year month sum : Nat) :
    dowOf year month (sum % 256) = dowOf year month sum ↔ 7 ∣ sum / 256 := by
  unfold dowOf
  omega

/-- The day of the week is right when the sum in `dom` loses a multiple of 7
times 256. -/
theorem dowCorrect_iff_dvd
    (date : Date)
    (fits : date.year < 2 ^ 16) :
    DowCorrect date ↔
      7 ∣ daySum date.year date.month date.day / 256 := by
  have day_le := date.day_le.trans
    (Calendar.monthLength_le date.year date.month)
  have month_le := date.month_le
  have weekday_lt : date.weekday < 7 := Nat.mod_lt _ (by decide)
  have month_lt : date.month < 2 ^ 8 := by omega
  have returned := getDow_toNat date.year_pos fits month_lt date.day_pos
    (by omega)
  have shown : (BitVec.ofNat 8 (date.weekday + 1)).toNat = date.weekday + 1 :=
    Nat.mod_eq_of_lt (by omega)
  rw [← dowOf_mod_256 date.year date.month, dowOf_daySum, DowCorrect,
    BitVec.toNat_eq, returned, shown, Nat.add_right_cancel_iff]

/-- `get_dow` returns the right day of the week for a date of the years 1 to
9999 exactly when the sum in `dom` loses a multiple of 7 times 256, as it does
in the years from 1793 to 2016. -/
theorem dowCorrect_iff
    (date : Date)
    (year_le : date.year ≤ 9999) :
    DowCorrect date ↔
      7 ∣ daySum date.year date.month date.day / 256 :=
  dowCorrect_iff_dvd date (by omega)

/-- 28 February. -/
def february28 (year : Nat) (year_pos : 1 ≤ year) : Date where
  year := year
  month := 2
  day := 28
  year_pos := year_pos
  month_pos := by decide
  month_le := by decide
  day_pos := by decide
  day_le := by
    change 28 ≤ if Calendar.IsLeap year then 29 else 28
    split <;> decide

theorem dowCorrect_iff_sample :
    DowCorrect (february28 2016 (by decide)) ↔
      7 ∣ daySum 2016 2 28 / 256 :=
  dowCorrect_iff (february28 2016 (by decide)) (by decide)

/-- 28 February 2024 is a Wednesday, and `get_dow` returns 7. -/
theorem february28_wrong :
    ¬ ∀ date : Date, date.year ≤ 9999 → DowCorrect date := by
  intro always
  have correct := always (february28 2024 (by decide)) (by decide)
  rw [dowCorrect_iff_dvd _ (by decide)] at correct
  exact absurd correct (by decide)

/-! ## The time that is stored -/

/-- What a register of the clock holds for a number below 100. -/
def clockByte (bcd : Bool) (n : Nat) : BitVec 8 :=
  if bcd then BitVec.ofNat 8 (n / 10 * 16 + n % 10) else BitVec.ofNat 8 n

/-- The clock shows a date. -/
structure Shows
    (bcd : Bool)
    (register : BitVec 8 → BitVec 8)
    (date : Date) : Prop where
  /-- The century. -/
  century : register 0x32#8 = clockByte bcd (date.year / 100)
  /-- The year of the century. -/
  year : register 0x9#8 = clockByte bcd (date.year % 100)
  /-- The month. -/
  month : register 0x8#8 = clockByte bcd date.month
  /-- The day of the month. -/
  day : register 0x7#8 = clockByte bcd date.day

theorem timeField_clockByte
    {n : Nat}
    (bcd : Bool)
    (small : n < 100) :
    timeField bcd (clockByte bcd n) = BitVec.ofNat 8 n := by
  cases bcd with
  | false => rfl
  | true =>
      have all : ∀ n : Fin 100,
          timeField true (clockByte true n.val) = BitVec.ofNat 8 n.val := by
        decide
      exact all ⟨n, small⟩

/-- In every mode of the clock, the date is stored as it is shown, and the day
of the week is right under the condition of `get_dow`. -/
theorem rtcHandlerTime_shows
    {bcd : Bool} {register : BitVec 8 → BitVec 8} {date : Date}
    (shows : Shows bcd register date)
    (year_ge : 100 ≤ date.year)
    (year_le : date.year ≤ 9999) :
    (rtcHandlerTime bcd register).century.toNat * 100 +
          (rtcHandlerTime bcd register).year.toNat = date.year ∧
      (rtcHandlerTime bcd register).month.toNat = date.month ∧
      (rtcHandlerTime bcd register).dom.toNat = date.day ∧
      ((rtcHandlerTime bcd register).dow.toNat = date.weekday + 1 ↔
        7 ∣ daySum date.year date.month date.day / 256) := by
  have day_le := date.day_le.trans
    (Calendar.monthLength_le date.year date.month)
  have month_le := date.month_le
  have weekday_lt : date.weekday < 7 := Nat.mod_lt _ (by decide)
  have century : timeField bcd (register 0x32#8) =
      BitVec.ofNat 8 (date.year / 100) := by
    rw [shows.century, timeField_clockByte bcd (by omega)]
  have present : BitVec.ofNat 8 (date.year / 100) ≠ 0#8 := by
    rw [Ne, BitVec.toNat_eq, BitVec.toNat_ofNat, BitVec.toNat_ofNat]
    omega
  have year : timeField bcd (register 0x9#8) =
      BitVec.ofNat 8 (date.year % 100) := by
    rw [shows.year, timeField_clockByte bcd (by omega)]
  have month : timeField bcd (register 0x8#8) =
      BitVec.ofNat 8 date.month := by
    rw [shows.month, timeField_clockByte bcd (by omega)]
  have day : timeField bcd (register 0x7#8) = BitVec.ofNat 8 date.day := by
    rw [shows.day, timeField_clockByte bcd (by omega)]
  have sum : (BitVec.ofNat 8 (date.year / 100)).toNat * 100 +
      (BitVec.ofNat 8 (date.year % 100)).toNat = date.year := by
    rw [BitVec.toNat_ofNat, BitVec.toNat_ofNat]
    omega
  have correct := dowCorrect_iff_dvd date (by omega)
  simp only [rtcHandlerTime, century, year, month, day, if_pos present, sum]
  refine ⟨trivial, ?_, ?_, ?_⟩
  · exact Nat.mod_eq_of_lt (by omega)
  · exact Nat.mod_eq_of_lt (by omega)
  · rw [← correct, DowCorrect, BitVec.toNat_eq, BitVec.toNat_ofNat,
      Nat.mod_eq_of_lt (by omega)]

end Rtc
end PivotOs
