import BillRun.Calendar.Text
import BillRun.Plan.Period
import BillRun.Text.Quoted

/-! What can go wrong, as causes.

Every operation that can fail answers `Except Fault`. `Fault.message` words each cause; the two
faults that `refused` holds of are answers to a bill run that asks for too much, and carry a
`code`. -/
namespace BillRun

open Calendar Text

/-- A cause of failure. -/
inductive Fault where
  /-- A computed date falls in a year before 1 or after 9999. -/
  | year (year : Int)
  /-- A day of the month before the first. -/
  | day
  /-- A count of days, a year or an instant far outside what a date can hold. -/
  | beyondCalendar
  /-- An ordering of two moments of which one has an offset and one has none. -/
  | incomparable
  | cycleDay (day : Int)
  | dateSequence (start : Moment) (stop : Option Moment) (target : Moment)
  | horizon (target : Moment) (months : Int)
  | unsupportedMode (mode : Mode)
  | noCycle (period : Period)
  /-- A boundary search that no boundary ends. -/
  | endless
  | unknownRounding
  /-- A rounding that would need more digits than amounts have. -/
  | precision
  /-- An amount too large for its exponent. -/
  | magnitude
  /-- A word that a vocabulary does not have. -/
  | unknownWord (word : LooseText) (vocabulary : String)
  | position
  | zeroStep
  /-- A value to be sent with a number that is not finite. -/
  | notFinite
  /-- A value to be sent with a surrogate that has no partner. -/
  | unpaired
  /-- An invoice to be sent with such a surrogate in a name. -/
  | unpairedName
  /-- An address that does not read as one. -/
  | address
  /-- What the service is told after a host is no number. -/
  | channel (text : String)
  /-- An address under a scheme that the service does not know. -/
  | scheme
  /-- An address that asks for a lasting connection. -/
  | connection
  /-- A variable of the environment with a null character. -/
  | nullCharacter
  /-- A variable of the environment with an equals sign in its name. -/
  | variableName
  /-- A variable of the environment without a name. -/
  | noVariableName
deriving DecidableEq

namespace Fault

/-- Whether the run was refused for its dates. -/
def refused : Fault → Bool
  | dateSequence .. | horizon .. => true
  | _ => false

/-- The code of a refusal. -/
def code : Fault → Option String
  | dateSequence .. => some "invoice_invalid_date_sequence"
  | horizon .. => some "invoice_target_date_too_far_in_the_future"
  | _ => none

/-- The cause in words. -/
def message : Fault → String
  | year y => s!"year {y} is out of range"
  | day => "day is out of range for month"
  | beyondCalendar => "date value out of range"
  | incomparable => "moments with and without an offset have no order"
  | cycleDay d => s!"Invalid bill cycle day: {d}"
  | dateSequence start stop target =>
    let stop := (stop.map Moment.text).getD "none"
    s!"Invalid date sequence: start {start.text}, end {stop}, target {target.text}"
  | horizon target months =>
    s!"Target date {target.text} is more than {months} months in the future"
  | unsupportedMode mode => s!"No billing mode registered for {mode.name}"
  | noCycle period => s!"Billing period {period.name} has no recurring cycle"
  | endless => "no boundary lies past the limit"
  | unknownRounding => "invalid rounding mode"
  | precision => "the rounded amount has too many digits"
  | magnitude => "the amount is too large"
  | unknownWord word vocabulary => s!"{quoted word} is not a valid {vocabulary}"
  | position => "position out of range"
  | zeroStep => "slice step cannot be zero"
  | notFinite => "Out of range float values are not JSON compliant"
  | unpaired => "surrogates without a partner cannot be sent"
  | unpairedName => "an invoice with a broken name cannot be sent"
  | address => "the address is not valid"
  | channel text => s!"invalid literal for int() with base 10: {quoted text}"
  | scheme => "the scheme of the address is unknown"
  | connection => "the address asks for a lasting connection"
  | nullCharacter => "embedded null byte"
  | variableName => "illegal environment variable name"
  | noVariableName => "a variable without a name"

end Fault

/-- The text as it can be sent. -/
def LooseText.send : LooseText → Except Fault String
  | .text s => .ok s
  | .broken _ => .error .unpaired

/-- The word's meaning in a vocabulary, or the fault that names both. -/
def wordOrFault (vocabulary : String) (ofName? : String → Option α) (word : LooseText) :
    Except Fault α :=
  match word.text?.bind ofName? with
  | some a => .ok a
  | none => .error (.unknownWord word vocabulary)

/-- Only billing in advance can be carried out. -/
def Mode.check : Mode → Except Fault Unit
  | .inAdvance => .ok ()
  | .inArrear => .error (.unsupportedMode .inArrear)

/-- The period that a word names; the same for modes and units below. -/
def Period.read : LooseText → Except Fault Period := wordOrFault "BillingPeriod" Period.ofName?

def Mode.read : LooseText → Except Fault Mode := wordOrFault "BillingModeType" Mode.ofName?

def TimeUnit.read : LooseText → Except Fault TimeUnit := wordOrFault "TimeUnit" TimeUnit.ofName?

end BillRun
