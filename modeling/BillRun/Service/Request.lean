import BillRun.Account.Run
import BillRun.Service.Scalars

/-! The request for a bill run, read from a structured value.

Fields that are not known are ignored. Currencies have three characters. A recurring item without a
rate has the rate 0; a fixed item has neither rate nor back-reference, whatever the form says. -/
namespace BillRun.Service

open Calendar Form Form.Checked Scalars

/-- A request for a bill run, with all that the run goes by; without `now`, at the present. -/
structure Request where
  account : Uuid
  target : Moment
  currency : LooseText
  events : List Event
  issued : List Invoice
  now : Option Moment

/-- A day of the month from 1 to 31. -/
def cycleDay (j : Json) : Checked CycleDay :=
  match integer j with
  | .value n =>
    match CycleDay.ofInt? n with
    | some day => value day
    | none => complain (if n < 1 then .tooSmall else .tooLarge)
  | .remarks rs => .remarks rs
  | .fault f => .fault f

/-- Three characters, whatever they are. -/
def currency : Check LooseText := fun j => (textOfLength 3 j).map .text

/-- The length of a phase: a unit, and how many of them, which is not negative. -/
def phaseLength : Check PhaseLength := record fun j =>
  PhaseLength.mk <$> required "unit" (word TimeUnit.ofName?) j
    <*> optionally "number" (integerFrom 0) j

variable [Scalars]

/-- A billing event. Unless it says otherwise it has no cycles and would bill them in advance from
the first of the month. -/
def event : Check Event := record fun j =>
  Event.mk <$> required "subscription_id" readUuid j
    <*> required "plan_name" looseText j
    <*> required "phase_name" looseText j
    <*> required "effective_date" readMoment j
    <*> withDefault "billing_period" Period.none (word Period.ofName?) j
    <*> withDefault "billing_mode" Mode.inAdvance (word Mode.ofName?) j
    <*> withDefault "bill_cycle_day" CycleDay.first cycleDay j
    <*> optionally "fixed_price" readAmount j
    <*> optionally "recurring_price" readAmount j
    <*> optionally "phase_duration" phaseLength j
    <*> withDefault "total_ordering" 0 integer j

/-- What an item of some kind has of a rate and a back-reference. -/
def basisOf (rate : Option Decimal) (reverses : Option Uuid) : Kind → Basis
  | .fixed => .fixed
  | .recurring => .recurring (rate.getD .zero) reverses

/-- An item put together from the fields of its form. -/
def itemOf (id : Uuid) (kind : Kind) (invoice subscription : Uuid) (plan phase : LooseText)
    (start : Moment) (stop : Option Moment) (amount : Decimal) (currency : LooseText)
    (created : Moment) (rate : Option Decimal) (reverses : Option Uuid) : Item :=
  let basis := basisOf rate reverses kind
  Charge.issue ⟨subscription, plan, phase, start, stop, amount, currency, basis⟩ id invoice created

/-- An item of an issued invoice. -/
def item : Check Item := record fun j =>
  itemOf <$> required "id" readUuid j
    <*> required "item_type" (word Kind.ofName?) j
    <*> required "invoice_id" readUuid j
    <*> required "subscription_id" readUuid j
    <*> required "plan_name" looseText j
    <*> required "phase_name" looseText j
    <*> required "start_date" readMoment j
    <*> optionally "end_date" readMoment j
    <*> required "amount" readAmount j
    <*> required "currency" currency j
    <*> required "created_date" readMoment j
    <*> optionally "rate" readAmount j
    <*> optionally "reversed_item_id" readUuid j

/-- An issued invoice. Its totals are not among the fields. -/
def invoice : Check Invoice := record fun j =>
  Invoice.mk <$> required "id" readUuid j
    <*> required "account_id" readUuid j
    <*> required "invoice_date" readMoment j
    <*> required "target_date" readMoment j
    <*> required "currency" currency j
    <*> withDefault "items" [] (list item) j

/-- The body of a request. Unless it says otherwise it asks for dollars. -/
def request : Check Request := record fun j =>
  Request.mk <$> required "account_id" readUuid j
    <*> required "target_date" readMoment j
    <*> withDefault "currency" "USD" currency j
    <*> withDefault "events" [] (list event) j
    <*> withDefault "existing_invoices" [] (list invoice) j
    <*> optionally "now" readMoment j

end BillRun.Service
