import BillRun.Charge.Expansion
import BillRun.Charge.Invoice
import BillRun.Settlement

/-! A bill run: the next invoice of an account, if there is anything to bill.

The run refuses a target beyond the horizon, bills through no earlier date than an issued invoice
did, and settles what the account's timeline bills against what was issued. Ids are taken from a
given supply, the first for the invoice itself. -/
namespace BillRun

open Calendar

/-- What a run depends on besides the account: its terms, the time, and a supply of ids. -/
structure Occasion where
  terms : Terms
  now : Moment
  ids : Nat → Uuid

/-- What a run is asked for: the account, the date to bill through, and the currency. -/
structure RunRequest where
  account : Uuid
  target : Moment
  currency : LooseText

namespace Terms

/-- The target may lie at most `horizon` whole months after the present. -/
def checkHorizon (t : Terms) (now target : Moment) : Except Fault Unit := do
  if t.horizon < (← now.monthsBetween target) then throw (.horizon target t.horizon)

end Terms

/-- The latest of a target and the targets of issued invoices; of equal ones, the first. -/
def latestTarget (target : Moment) : List Invoice → Except Fault Moment
  | [] => .ok target
  | v :: issued => do
    if ← target.lt v.target then latestTarget v.target issued else latestTarget target issued

/-- The next invoice of an account; nothing when there are no events or nothing is left to bill. The
horizon is for the target that is asked for, not for a later one that an issued invoice had. -/
def Occasion.run (o : Occasion) (events : List Event) (issued : List Invoice) (r : RunRequest) :
    Except Fault (Option Invoice) := do
  let timeline ← Timeline.of events
  if timeline.events.isEmpty then return none
  o.terms.checkHorizon o.now r.target
  let existing ← Item.arrange id (issued.flatMap (·.items))
  let target ← latestTarget r.target issued
  let invoice := o.ids 0
  let proposed ← timeline.expand o.terms o.now (fun n => o.ids (n + 1)) invoice target r.currency
  let creditIds := fun n => o.ids (n + 1 + proposed.length)
  let items ← Settlement.settle proposed existing creditIds invoice o.now
  if items.isEmpty then return none
  return some ⟨invoice, r.account, o.now, target, r.currency, items⟩

end BillRun
