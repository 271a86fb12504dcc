import BillRun.Fault

/-! Moving moments by months, and counting months and days between them.

`addMonths` keeps the day where the month allows and takes the month's last day where it does not;
`addMonthsOnDay` pins the day afterwards, so that an anchor of 29 to 31 outlives a short month.
Time of day and offset never change. `lt`, `le` and `earlier` order moments and fail between one
with an offset and one without. -/
namespace BillRun.Calendar

/-- A year that no date has; one too large to be asked for at all is beyond the calendar. -/
def yearFault (y : Int) : Fault :=
  if -0x80000000 ≤ y ∧ y < 0x80000000 then .year y else .beyondCalendar

/-- The month that lies `n` months ahead; a fault when it is in no year from 1 to 9999. -/
def Month.shift (m : Month) (n : Int) : Except Fault Month :=
  let index := (m.index : Int) + n
  if h : 12 ≤ index ∧ index < 120000 then .ok ⟨index.toNat, by omega, by omega⟩
  else .error (yearFault (index / 12))

namespace Moment

/-- Whether the first moment is strictly earlier; a fault when they have no order. -/
def lt (s t : Moment) : Except Fault Bool :=
  if Comparable s t then .ok (decide (s.instant < t.instant)) else .error .incomparable

def le (s t : Moment) : Except Fault Bool :=
  if Comparable s t then .ok (decide (s.instant ≤ t.instant)) else .error .incomparable

/-- The first of two moments unless the second is strictly earlier. -/
def earlier (s t : Moment) : Except Fault Moment := do
  if ← t.lt s then return t else return s

/-- Moved to a day of its own month, or to the month's last day. -/
def onDay (t : Moment) (day : Int) : Except Fault Moment :=
  if h : 1 ≤ day then .ok { t with date := .clamped t.date.month day.toNat (by omega) }
  else .error (if -0x80000000 ≤ day then .day else .beyondCalendar)

/-- Moved by months, to the last day where the month is too short for the day. -/
def addMonths (t : Moment) (n : Int) : Except Fault Moment := do
  let month ← t.date.month.shift n
  return { t with date := .clamped month t.date.day t.date.one_le_day }

/-- Moved by months and put on a day there, whatever its own day was. -/
def addMonthsOnDay (t : Moment) (n day : Int) : Except Fault Moment := do
  let month ← t.date.month.shift n
  { t with date := .clamped month 1 (Nat.le_refl 1) }.onDay day

/-- Whole months from one moment to another, negative when the second is earlier. -/
def monthsBetween (s t : Moment) : Except Fault Int := do
  let months := (t.date.month.index : Int) - s.date.month.index
  if 0 < months then
    if ← t.lt (← s.addMonths months) then return months - 1 else return months
  else if months < 0 then
    if ← (← s.addMonths months).lt t then return months + 1 else return months
  else return months

/-- Calendar days from one local date to another. -/
def daysBetween (s t : Moment) : Int := (t.date.dayNumber : Int) - s.date.dayNumber

/-- Moved by days of the calendar; time of day and offset stay. -/
def addDays (t : Moment) (n : Int) : Except Fault Moment :=
  if 999999999 < n.natAbs then .error .beyondCalendar
  else
    match Date.ofDayNumber? (t.date.dayNumber + n) with
    | some date => .ok { t with date }
    | none => .error .beyondCalendar

/-- The same instant in UTC. -/
def toUtc (t : Moment) : Except Fault Moment :=
  match t.toUtc? with
  | some u => .ok u
  | none => .error .beyondCalendar

theorem lt_of_comparable {s t : Moment} (h : Comparable s t) :
    s.lt t = .ok (decide (s.instant < t.instant)) := if_pos h

theorem le_of_comparable {s t : Moment} (h : Comparable s t) :
    s.le t = .ok (decide (s.instant ≤ t.instant)) := if_pos h

end Moment

end BillRun.Calendar
