import BillRun.Amount.Arithmetic
import BillRun.Cycle.Boundary

/-! Billing in advance: a stretch of time cut into cycles and parts of cycles.

The stretch runs from the start of an event to the end that `Cycle.endAfter` gives. It is cut at the
cycle boundaries. A piece before the first boundary is a part of the cycle that ends there, a piece
after the last is a part of the cycle that begins there, and each part counts as its share of days.
A part that begins and ends on one calendar date is not billed. -/
namespace BillRun

open Calendar

/-- A piece of time and how many cycles it makes. -/
structure Span where
  start : Moment
  stop : Moment
  cycles : Decimal
deriving DecidableEq

namespace Proration

/-- The piece from `start` to `stop` as a share, by days, of the cycle between two moments. -/
def share (start stop low high : Moment) : Span :=
  ⟨start, stop, .ratio (start.daysBetween stop).toNat (low.daysBetween high).toNat⟩

/-- The piece before the first boundary. -/
def leading (c : Cycle) (start stop : Moment) : Except Fault (List Span) := do
  if ← start.lt c.first then
    let pieceEnd ← c.first.earlier stop
    if 0 < start.daysBetween pieceEnd then
      return [share start pieceEnd (← c.first.addMonthsOnDay (-c.months) c.day) c.first]
    else return []
  else return []

/-- The cycle that begins at boundary `k`. -/
def wholeCycle (c : Cycle) (k : Nat) : Except Fault Span := do
  return ⟨← c.boundary k, ← c.boundary (k + 1), .one⟩

/-- How many whole cycles end no later than the stop. -/
def wholeCycles (c : Cycle) (stop : Moment) : Except Fault Nat := do return (← c.past stop 1) - 1

/-- The piece that begins at boundary `k`, when the stretch ends before the next. -/
def trailing (c : Cycle) (k : Nat) (stop : Moment) : Except Fault (List Span) := do
  let last ← c.boundary k
  if ← last.lt stop then
    if 0 < last.daysBetween stop then return [share last stop last (← c.boundary (k + 1))]
    else return []
  else return []

/-- Whether a stretch that may stop would stop before it starts. -/
def stopsBefore (stop : Option Moment) (start : Moment) : Except Fault Bool :=
  match stop with
  | none => .ok false
  | some stop => stop.lt start

/-- The pieces to bill for an event that starts at `start` and may stop at `stop`. -/
def spans (start : Moment) (stop : Option Moment) (target : Moment) (day : Int) (period : Period) :
    Except Fault (List Span) := do
  if ← stopsBefore stop start then throw (.dateSequence start stop target)
  if ← target.lt start then throw (.dateSequence start stop target)
  if period.months = 0 then throw (.noCycle period)
  let c : Cycle := ⟨← firstDate start day, period.months, day⟩
  let stretchEnd ← c.endAfter target stop
  let before ← leading c start stretchEnd
  let count ← wholeCycles c stretchEnd
  let cycles ← (List.range count).mapM (wholeCycle c)
  let after ← trailing c count stretchEnd
  return before ++ cycles ++ after

end Proration

end BillRun
