import BillRun.Amount.Decimal
import BillRun.Identity
import BillRun.Plan.PhaseLength
import BillRun.Text.Loose

/-! Billing events: recorded changes of a subscription's terms, each in force from a moment on.

`Event.key` is what equality of events sees: amounts as numbers, moments as instants. Events are
ordered by effective instant, then by their own ordering number, then by subscription. -/
namespace BillRun

open Calendar

/-- The day of the month on which cycles begin; short months use their last day. -/
structure CycleDay where
  day : Nat
  bounds : 1 ≤ day ∧ day ≤ 31
deriving DecidableEq

namespace CycleDay

/-- The first of the month, for events that name no day. -/
def first : CycleDay := ⟨1, by decide⟩

/-- The day of a number from 1 to 31. -/
def ofInt? (n : Int) : Option CycleDay :=
  if h : 1 ≤ n ∧ n ≤ 31 then some ⟨n.toNat, by omega⟩ else none

/-- As `ofInt?`, with a fault that names any other number. -/
def ofInt (n : Int) : Except Fault CycleDay :=
  match ofInt? n with
  | some day => .ok day
  | none => .error (.cycleDay n)

end CycleDay

/-- The terms of a subscription from a moment on. Of events that take effect at one instant, the
`ordering` tells which comes first. -/
structure Event where
  subscription : Uuid
  plan : LooseText
  phase : LooseText
  effective : Moment
  period : Period
  mode : Mode
  cycleDay : CycleDay
  fixedPrice : Option Decimal
  recurringPrice : Option Decimal
  phaseLength : Option PhaseLength
  ordering : Int
deriving DecidableEq

/-- What two equal events share. -/
structure EventKey where
  subscription : Uuid
  plan : LooseText
  phase : LooseText
  effective : Mark
  period : Period
  mode : Mode
  cycleDay : CycleDay
  fixedPrice : Option Decimal
  recurringPrice : Option Decimal
  phaseLength : Option PhaseLength
  ordering : Int
deriving DecidableEq

namespace Event

/-- The event as equality sees it. -/
def key (e : Event) : EventKey where
  subscription := e.subscription
  plan := e.plan
  phase := e.phase
  effective := e.effective.mark
  period := e.period
  mode := e.mode
  cycleDay := e.cycleDay
  fixedPrice := e.fixedPrice.map Decimal.canonical
  recurringPrice := e.recurringPrice.map Decimal.canonical
  phaseLength := e.phaseLength
  ordering := e.ordering

def same (a b : Event) : Bool := a.key = b.key

/-- Whether there are cycles to bill. -/
def recurs (e : Event) : Bool := e.period ≠ .none

/-- The order of events whose effective moments are comparable. -/
def le (a b : Event) : Bool :=
  a.effective.instant < b.effective.instant ||
    (a.effective.instant = b.effective.instant &&
      (a.ordering < b.ordering ||
        (a.ordering = b.ordering && a.subscription.value.toNat ≤ b.subscription.value.toNat)))

/-- Whether the first event comes strictly before the second; a fault when they have no order. -/
def lt (a b : Event) : Except Fault Bool :=
  if Moment.Comparable a.effective b.effective then .ok (!b.le a) else .error .incomparable

end Event

end BillRun
