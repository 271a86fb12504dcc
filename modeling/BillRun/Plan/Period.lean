/-! The vocabulary of a plan: how often it bills, when within a cycle, and units of phase length. -/
namespace BillRun

/-- How often the recurring price is billed; `none` is for a phase that has no cycles. -/
inductive Period where
  | monthly
  | quarterly
  | annual
  | none
deriving DecidableEq, Repr

/-- When within a cycle its charge falls due. -/
inductive Mode where
  | inAdvance
  | inArrear
deriving DecidableEq, Repr

/-- What the length of a phase is counted in; an unlimited phase has no end. -/
inductive TimeUnit where
  | days
  | months
  | years
  | unlimited
deriving DecidableEq, Repr

namespace Period

/-- The length of a cycle; 0 where there is none. -/
def months : Period → Nat
  | monthly => 1
  | quarterly => 3
  | annual => 12
  | none => 0

/-- The word for the period in forms. -/
def name : Period → String
  | monthly => "monthly"
  | quarterly => "quarterly"
  | annual => "annual"
  | none => "no_billing_period"

def all : List Period := [monthly, quarterly, annual, none]

/-- The period of a name, letter for letter. -/
def ofName? (s : String) : Option Period := all.find? (·.name = s)

end Period

namespace Mode

/-- The word for the mode in forms. -/
def name : Mode → String
  | inAdvance => "in_advance"
  | inArrear => "in_arrear"

def all : List Mode := [inAdvance, inArrear]

/-- The mode of a name, letter for letter. -/
def ofName? (s : String) : Option Mode := all.find? (·.name = s)

end Mode

namespace TimeUnit

/-- The word for the unit in forms. -/
def name : TimeUnit → String
  | days => "days"
  | months => "months"
  | years => "years"
  | unlimited => "unlimited"

def all : List TimeUnit := [days, months, years, unlimited]

/-- The unit of a name, letter for letter. -/
def ofName? (s : String) : Option TimeUnit := all.find? (·.name = s)

end TimeUnit

end BillRun
