import BillRun.Calendar.Shift

/-! The length of a plan phase, in days, months or years, or without limit. -/
namespace BillRun

open Calendar

/-- A unit without a number has no length at all. -/
structure PhaseLength where
  unit : TimeUnit
  number : Option Int
deriving DecidableEq, Repr

/-- The end of a phase that starts at `t`; none when it is unlimited. -/
def PhaseLength.after (p : PhaseLength) (t : Moment) : Except Fault (Option Moment) :=
  match p.unit, p.number with
  | .unlimited, _ => .ok none
  | _, none => .ok (some t)
  | .days, some n => some <$> t.addDays n
  | .months, some n => some <$> t.addMonths n
  | .years, some n => some <$> t.addMonths (12 * n)

end BillRun
