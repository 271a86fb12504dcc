import BillRun.Fault

/-! Positions and slices of a list, counted from either end.

A negative position counts from the end. A slice takes every `step`-th element from `start` up to
but not including `stop`, going backward when the step is negative; bounds outside the list are
moved to its ends, and a missing bound is the end where the slice starts or stops. -/
namespace BillRun.Sequence

/-- The element at a position. -/
def at? (xs : List α) (position : Int) : Option α :=
  let i := if position < 0 then position + xs.length else position
  if i < 0 then none else xs[i.toNat]?

/-- A bound of a forward slice as a count of elements before it. -/
def clamp (length : Nat) (bound : Int) : Nat :=
  let i := if bound < 0 then bound + length else bound
  min i.toNat length

/-- The positions of `count` elements that lie `step` apart. -/
def stride (start step : Int) (count : Nat) : List Nat :=
  (List.range count).map fun k : Nat => (start + (k : Int) * step).toNat

/-- The positions that a slice takes, in its order; a step of 0 is a fault. -/
def slicePositions (length : Nat) (start stop step : Option Int) : Except Fault (List Nat) :=
  let step := step.getD 1
  if step = 0 then .error .zeroStep
  else if 0 < step then
    let first := clamp length (start.getD 0)
    let last := clamp length (stop.getD length)
    .ok (stride first step (((last : Int) - first + step - 1) / step).toNat)
  else
    -- the highest and lowest bounds are the last element and the place before the first
    let bound (b : Int) : Int :=
      let i := if b < 0 then b + length else b
      max (-1) (min i (length - 1))
    let first := match start with
      | some b => bound b
      | none => (length : Int) - 1
    let last := match stop with
      | some b => bound b
      | none => -1
    .ok (stride first step ((first - last - step - 1) / -step).toNat)

def slice (xs : List α) (start stop step : Option Int) : Except Fault (List α) := do
  return (← slicePositions xs.length start stop step).filterMap (xs[·]?)

end BillRun.Sequence
