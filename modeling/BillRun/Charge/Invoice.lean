import BillRun.Charge.Item

/-! Invoices and their totals. -/
namespace BillRun

open Calendar

/-- What an account is billed on a date, through a target. -/
structure Invoice where
  id : Uuid
  account : Uuid
  date : Moment
  target : Moment
  currency : LooseText
  items : List Item
deriving DecidableEq

namespace Invoice

def amounts (v : Invoice) : List Decimal := v.items.map (·.charge.amount)

/-- The invoice with further items after its own. -/
def add (v : Invoice) (items : List Item) : Invoice := { v with items := v.items ++ items }

/-- The sum of all amounts. -/
def total (v : Invoice) : Except Fault Decimal := Decimal.total v.amounts

/-- The sum of the positive amounts. -/
def charged (v : Invoice) : Except Fault Decimal :=
  Decimal.total (v.amounts.filter Decimal.isPositive)

/-- The sum of the negative amounts, without their sign. -/
def credited (v : Invoice) : Except Fault Decimal := do
  Decimal.total (← (v.amounts.filter Decimal.isNegative).mapM Decimal.neg)

def itemsOf (v : Invoice) (subscription : Uuid) : List Item :=
  v.items.filter (·.charge.subscription = subscription)

end Invoice

end BillRun
