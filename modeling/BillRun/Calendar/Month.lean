/-! Months of the calendar, kept as one running count.

A month is its count since the start of year 0, so moving by months is an addition and the year
is a quotient. Years run from 1 to 9999. Lengths follow the Gregorian rule, and `daysBefore`
counts the days from the first day of year 1; it grows by each month's length
(`daysBefore_succ`), which is all that day arithmetic needs to know about months. -/
namespace BillRun.Calendar

/-- Every fourth year; of the full centuries, every fourth one. -/
def leapYear (year : Nat) : Bool :=
  year % 4 == 0 && (year % 100 != 0 || year % 400 == 0)

/-- The length of the month with the given count. -/
def lengthAt (index : Nat) : Nat :=
  match index % 12 with
  | 1 => if leapYear (index / 12) then 29 else 28
  | 3 | 5 | 8 | 10 => 30
  | _ => 31

/-- Days of a year that come before its month `number`, January being 0. -/
def daysBeforeInYear (leap : Nat) : Nat → Nat
  | 0 => 0
  | 1 => 31
  | 2 => 59 + leap
  | 3 => 90 + leap
  | 4 => 120 + leap
  | 5 => 151 + leap
  | 6 => 181 + leap
  | 7 => 212 + leap
  | 8 => 243 + leap
  | 9 => 273 + leap
  | 10 => 304 + leap
  | _ => 334 + leap

/-- Days from the first day of year 1 to the first day of the month with the given count. -/
def daysBefore (index : Nat) : Nat :=
  let years := index / 12 - 1
  let leap := if leapYear (index / 12) then 1 else 0
  365 * years + (years / 4 - years / 100 + years / 400) + daysBeforeInYear leap (index % 12)

/-- A month of the years 1 to 9999. -/
structure Month where
  index : Nat
  first_le : 12 ≤ index
  index_lt : index < 120000
deriving DecidableEq

namespace Month

def year (m : Month) : Nat := m.index / 12

/-- The month within its year, from 1 to 12. -/
def number (m : Month) : Nat := m.index % 12 + 1

def length (m : Month) : Nat := lengthAt m.index

/-- The month of a year, when both exist. -/
def of? (year number : Nat) : Option Month :=
  if h : (1 ≤ year ∧ year ≤ 9999) ∧ 1 ≤ number ∧ number ≤ 12 then
    some ⟨12 * year + (number - 1), by omega, by omega⟩
  else none

end Month

theorem lengthAt_le (index : Nat) : lengthAt index ≤ 31 := by
  unfold lengthAt
  split <;> try split
  all_goals omega

theorem le_lengthAt (index : Nat) : 28 ≤ lengthAt index := by
  unfold lengthAt
  split <;> try split
  all_goals omega

/-- Counting a month's days leads to the next month. -/
theorem daysBefore_succ (index : Nat) (h : 12 ≤ index) :
    daysBefore (index + 1) = daysBefore index + lengthAt index := by
  obtain ⟨year, number, rfl, hn, hy⟩ :
      ∃ year number, index = 12 * year + number ∧ number < 12 ∧ 1 ≤ year :=
    ⟨index / 12, index % 12, by omega, by omega, by omega⟩
  have hdiv : (12 * year + number) / 12 = year := by omega
  have hmod : (12 * year + number) % 12 = number := by omega
  rcases Nat.lt_or_ge number 11 with hlt | hge
  · have hdiv' : (12 * year + number + 1) / 12 = year := by omega
    have hmod' : (12 * year + number + 1) % 12 = number + 1 := by omega
    simp only [daysBefore, lengthAt, hdiv, hmod, hdiv', hmod']
    have : number ∈ [0, 1, 2, 3, 4, 5, 6, 7, 8, 9, 10] := by simp; omega
    simp only [List.mem_cons, List.not_mem_nil, or_false] at this
    rcases this with rfl | rfl | rfl | rfl | rfl | rfl | rfl | rfl | rfl | rfl | rfl <;>
      simp only [daysBeforeInYear] <;> split <;> omega
  · obtain rfl : number = 11 := by omega
    have hdiv' : (12 * year + 11 + 1) / 12 = year + 1 := by omega
    have hmod' : (12 * year + 11 + 1) % 12 = 0 := by omega
    simp only [daysBefore, lengthAt, hdiv, hmod, hdiv', hmod', daysBeforeInYear]
    have h4 : year / 4 = (year - 1) / 4 + if year % 4 = 0 then 1 else 0 := by split <;> omega
    have h100 : year / 100 = (year - 1) / 100 + if year % 100 = 0 then 1 else 0 := by
      split <;> omega
    have h400 : year / 400 = (year - 1) / 400 + if year % 400 = 0 then 1 else 0 := by
      split <;> omega
    have hle : (year - 1) / 100 ≤ (year - 1) / 4 := by omega
    have h4of : year % 100 = 0 → year % 4 = 0 := by omega
    have h100of : year % 400 = 0 → year % 100 = 0 := by omega
    simp only [Nat.add_sub_cancel, leapYear, h4, h100, h400]
    generalize (year - 1) / 4 = a at *
    generalize (year - 1) / 100 = b at *
    generalize (year - 1) / 400 = c at *
    by_cases e4 : year % 4 = 0
    · by_cases e100 : year % 100 = 0
      · by_cases e400 : year % 400 = 0 <;> simp [e4, e100, e400] <;> omega
      · simp [e4, e100, mt h100of e100]; omega
    · simp [e4, mt h4of e4, mt h100of (mt h4of e4)]; omega

end BillRun.Calendar
