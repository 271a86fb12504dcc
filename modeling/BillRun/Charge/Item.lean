import BillRun.Amount.Arithmetic
import BillRun.Identity
import BillRun.Text.Loose

/-! Charges and the invoice items that record them.

A charge says what is billed: for which subscription, plan, phase and time, and how much. An item is
a charge once it stands on an invoice, with an id of its own. Two items bill the same thing when
their charges have one `key`; ids, the invoice, dates of creation, rates and currencies do not
enter. A credit is a recurring item with the opposite amount that names the item it reverses. -/
namespace BillRun

open Calendar

/-- Whether a price is charged once or cycle by cycle. -/
inductive Kind where
  | fixed
  | recurring
deriving DecidableEq, Repr

namespace Kind

/-- The word for the kind in forms. -/
def name : Kind → String
  | fixed => "fixed"
  | recurring => "recurring"

def all : List Kind := [fixed, recurring]

/-- The kind of a name, letter for letter. -/
def ofName? (s : String) : Option Kind := all.find? (·.name = s)

/-- The kind that a word names, or the fault that repeats the word. -/
def read : LooseText → Except Fault Kind := wordOrFault "InvoiceItemType" ofName?

/-- Kinds order as their names do. -/
def rank : Kind → Nat
  | fixed => 0
  | recurring => 1

end Kind

/-- What a recurring charge has besides: its price per cycle, and for a credit the item reversed. -/
inductive Basis where
  | fixed
  | recurring (rate : Decimal) (reverses : Option Uuid)
deriving DecidableEq

namespace Basis

def kind : Basis → Kind
  | fixed => .fixed
  | recurring .. => .recurring

/-- The price per cycle. -/
def rate? : Basis → Option Decimal
  | fixed => none
  | recurring rate _ => some rate

/-- The id of the item that is taken back. -/
def reverses : Basis → Option Uuid
  | fixed => none
  | recurring _ reverses => reverses

end Basis

/-- What is billed, for which time, and how much; without `stop` the time has no end. -/
structure Charge where
  subscription : Uuid
  plan : LooseText
  phase : LooseText
  start : Moment
  stop : Option Moment
  amount : Decimal
  currency : LooseText
  basis : Basis
deriving DecidableEq

/-- What two charges for the same thing share. -/
structure ChargeKey where
  kind : Kind
  subscription : Uuid
  plan : LooseText
  phase : LooseText
  start : Mark
  stop : Option Mark
  amount : Decimal
deriving DecidableEq

/-- A charge on an invoice. -/
structure Item where
  id : Uuid
  invoice : Uuid
  created : Moment
  charge : Charge
deriving DecidableEq

namespace Charge

def kind (c : Charge) : Kind := c.basis.kind

/-- What the charge bills, with moments as instants and the amount as a number. -/
def key (c : Charge) : ChargeKey where
  kind := c.kind
  subscription := c.subscription
  plan := c.plan
  phase := c.phase
  start := c.start.mark
  stop := c.stop.map Moment.mark
  amount := c.amount.canonical

/-- The charge as an item of an invoice. -/
def issue (c : Charge) (id invoice : Uuid) (created : Moment) : Item := ⟨id, invoice, created, c⟩

/-- Open-ended charges come after those with an end. -/
def stopLe : Option Moment → Option Moment → Bool
  | none, none => true
  | none, some _ => false
  | some _, none => true
  | some a, some b => a.instant ≤ b.instant

/-- Whether the order of two charges, by subscription, start, end and kind, can be told: the first
of these that differs must not be a moment with an offset against one without. -/
def comparable (a b : Charge) : Bool :=
  a.subscription ≠ b.subscription ||
    (a.start.mark.anchored = b.start.mark.anchored &&
      (a.start.mark ≠ b.start.mark ||
        match a.stop, b.stop with
        | some s, some t => s.mark.anchored = t.mark.anchored
        | _, _ => true))

/-- The order of comparable charges. -/
def le (a b : Charge) : Bool :=
  if a.subscription ≠ b.subscription then a.subscription.value < b.subscription.value
  else if a.start.instant ≠ b.start.instant then a.start.instant < b.start.instant
  else if stopLe a.stop b.stop && stopLe b.stop a.stop then a.kind.rank ≤ b.kind.rank
  else stopLe a.stop b.stop

end Charge

namespace Item

def key (i : Item) : ChargeKey := i.charge.key

/-- Whether two items bill the same thing. -/
def same (a b : Item) : Bool := a.key = b.key

/-- The id of the item that this one takes back, if it is a credit. -/
def reverses (i : Item) : Option Uuid := i.charge.basis.reverses

def isRecurring (i : Item) : Bool := i.charge.kind = .recurring

/-- Whether the first item comes strictly before the second; a fault when they have no order. -/
def lt (a b : Item) : Except Fault Bool :=
  if a.charge.comparable b.charge then .ok (!b.charge.le a.charge) else .error .incomparable

/-- Things with an item each, in order of their items; those that tie stay as they came. -/
def arrange (item : α → Item) (xs : List α) : Except Fault (List α) :=
  if xs.all fun a => xs.all fun b => (item a).charge.comparable (item b).charge then
    .ok (xs.mergeSort fun a b => (item a).charge.le (item b).charge)
  else .error .incomparable

/-- The credit for a recurring item; a fixed item has none. -/
def credit? (i : Item) (id invoice : Uuid) (created : Moment) : Option (Except Fault Item) :=
  match i.charge.basis with
  | .fixed => none
  | .recurring rate _ => some do
    let amount ← i.charge.amount.neg
    let opposite := { i.charge with amount, basis := .recurring rate (some i.id) }
    return opposite.issue id invoice created

end Item

end BillRun
