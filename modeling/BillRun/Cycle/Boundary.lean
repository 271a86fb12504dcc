import BillRun.Calendar.Shift

/-! Cycle boundaries.

The cycles of a subscription are anchored: boundary `k` lies `k` periods after the first, on the
same anchor day. Each is counted from the first and not from the one before, so a short month moves
only its own boundary. `firstDate` finds the first boundary on or after a start; `Cycle.past` finds
the first one after a limit. -/
namespace BillRun

open Calendar

/-- The first moment on or after the start that falls on the anchor day. -/
def firstDate (start : Moment) (day : Int) : Except Fault Moment := do
  let candidate ← start.onDay day
  if ← candidate.lt start then start.addMonthsOnDay 1 day else return candidate

/-- Boundaries every `months` months from `first` on, pinned to `day`. -/
structure Cycle where
  first : Moment
  months : Int
  day : Int

namespace Cycle

/-- Boundary `k`, counted in cycles from the first one. -/
def boundary (c : Cycle) : Nat → Except Fault Moment
  | 0 => .ok c.first
  | k + 1 => c.first.addMonthsOnDay ((k + 1 : Nat) * c.months) c.day

/-- The least index from `k` on whose boundary lies after the limit. -/
def pastFrom (c : Cycle) (limit : Moment) : (fuel k : Nat) → Except Fault Nat
  | 0, _ => .error .endless
  | fuel + 1, k => do
    let b ← c.boundary k
    if ← b.le limit then pastFrom c limit fuel (k + 1) else return k

/-- No search along boundaries takes more steps than the calendar has months, and one. -/
def searchLength : Nat := 120000

/-- As `pastFrom`, with a search as long as any can be. -/
def past (c : Cycle) (limit : Moment) (k : Nat) : Except Fault Nat :=
  c.pastFrom limit searchLength k

/-- The end of what is billed through the target: the first boundary after it, or the stop when
that comes no later. -/
def endAfter (c : Cycle) (target : Moment) (stop : Option Moment) : Except Fault Moment := do
  match stop with
  | none => c.boundary (← c.past target 0)
  | some stop =>
    if ← stop.le target then return stop
    else (← c.boundary (← c.past target 0)).earlier stop

end Cycle

end BillRun
