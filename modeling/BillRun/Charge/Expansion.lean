import BillRun.Charge.Item
import BillRun.Cycle.Proration
import BillRun.Plan.Timeline
import BillRun.Terms

/-! What a timeline bills through a target date.

Each event bills its fixed price once, for the length of its phase, and its recurring price for
every piece of the stretch from its effective date to that of its successor. Charges come in the
order of events, then of time. -/
namespace BillRun

open Calendar

namespace Event

/-- The event's own part of a charge. -/
def charge (e : Event) (start : Moment) (stop : Option Moment) (amount : Decimal)
    (currency : LooseText) (basis : Basis) : Charge where
  subscription := e.subscription
  plan := e.plan
  phase := e.phase
  start := start
  stop := stop
  amount := amount
  currency := currency
  basis := basis

/-- The fixed price, once the target has reached the effective date; it is charged for the length of
the phase, and without an end where that is unknown. -/
def fixedCharges (e : Event) (target : Moment) (currency : LooseText) :
    Except Fault (List Charge) := do
  if ← target.lt e.effective then return []
  else
    match e.fixedPrice with
    | none => return []
    | some price =>
      let stop ← match e.phaseLength with
        | none => pure none
        | some length => length.after e.effective
      return [e.charge e.effective stop price currency .fixed]

/-- The charge for one piece: its share of a cycle at the given rate. -/
def recurringCharge (e : Event) (terms : Terms) (currency : LooseText) (rate : Decimal) (s : Span) :
    Except Fault Charge := do
  return e.charge s.start s.stop (← terms.charge s.cycles rate) currency (.recurring rate none)

/-- The cycles of an event count even when it has no price for them: they may still fail. -/
def recurringCharges (e : Event) (successor : Option Event) (terms : Terms) (target : Moment)
    (currency : LooseText) : Except Fault (List Charge) := do
  if !e.recurs then return []
  else if ← e.effective.le target then
    e.mode.check
    let stop := successor.map (·.effective)
    let spans ← Proration.spans e.effective stop target e.cycleDay.day e.period
    match e.recurringPrice with
    | none => return []
    | some rate => spans.mapM (e.recurringCharge terms currency rate)
  else return []

/-- All that an event bills, the fixed price first. -/
def charges (e : Event) (successor : Option Event) (terms : Terms) (target : Moment)
    (currency : LooseText) : Except Fault (List Charge) := do
  let fixed ← e.fixedCharges target currency
  let recurring ← e.recurringCharges successor terms target currency
  return fixed ++ recurring

end Event

namespace Timeline

/-- The charges of events in order; the successor of each is sought among those after it. -/
def chargesOf (terms : Terms) (target : Moment) (currency : LooseText) :
    List Event → Except Fault (List Charge)
  | [] => .ok []
  | e :: later => do
    let first ← e.charges (successor e later) terms target currency
    let rest ← chargesOf terms target currency later
    return first ++ rest

/-- All that a timeline bills through a target. -/
def charges (t : Timeline) (terms : Terms) (target : Moment) (currency : LooseText) :
    Except Fault (List Charge) := chargesOf terms target currency t.events

/-- The charges as items of an invoice, with ids in order. -/
def expand (t : Timeline) (terms : Terms) (now : Moment) (ids : Nat → Uuid) (invoice : Uuid)
    (target : Moment) (currency : LooseText) : Except Fault (List Item) := do
  return (← t.charges terms target currency).mapIdx fun n c => c.issue (ids n) invoice now

end Timeline

end BillRun
