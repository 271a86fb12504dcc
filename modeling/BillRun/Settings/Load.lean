import BillRun.Form.Scalar
import BillRun.Settings.EnvFile
import BillRun.Settings.Environment
import BillRun.Terms
import BillRun.Text.Upper

/-! Settings, from values given outright, from the environment and from a file.

A value given outright wins over the environment, and that over the file; names are read without
regard to case. The horizon goes by two other names besides its own, and within one source the first
that is present counts; a value under another name wins over one under its own name, unless the
latter is given outright. A horizon that is no whole number gives the standard one, while any other
value that does not fit is complained of. -/
namespace BillRun

/-- What the program can be told. -/
structure Settings where
  appName : LooseText
  version : LooseText
  debug : Bool
  rounding : Rounding
  decimals : Int
  horizon : Int

namespace Settings

open Form Form.Checked Text

/-- Where settings may come from. -/
structure Sources where
  given : List (String × Json)
  environment : List (String × LooseText)
  file : Option String

/-- Lower case, of the letters that names are made of. -/
def lowerChar (c : Char) : Char := if c = '\u212a' then 'k' else c.toLower

def lower (s : String) : String := s.map lowerChar

/-- The settings where nothing else is given. -/
def standard : Settings := ⟨"subscription-invoicing", "0.1.0", false, .halfUp, 2, 36⟩

/-- The terms of bill runs under these settings. -/
def terms (s : Settings) : Terms := ⟨some s.rounding, s.decimals, s.horizon⟩

/-- The horizon's own name. -/
def horizonName : String := "max_number_of_months_in_future"

/-- The other names of the horizon. -/
def horizonAliases : List String :=
  ["killbill.invoice.maxNumberOfMonthsInFuture", "INVOICE_MAX_NUMBER_OF_MONTHS_IN_FUTURE"]

namespace Sources

/-- The entries under names in lower case. -/
def folded (entries : List (String × α)) : List (String × α) :=
  entries.map fun (name, v) => (lower name, v)

/-- The value of the first of some names that a table has. -/
def first? (names : List String) (table : List (String × α)) : Option α :=
  names.findSome? fun name => Assoc.get? (lower name) table

/-- Of names that differ in case only, the last counts. -/
def environmentTable (s : Sources) : List (String × LooseText) :=
  Assoc.ofList (folded s.environment)

/-- As in the environment; a name without a value hides an earlier one of other case all the
same. -/
def fileTable (s : Sources) : List (String × LooseText) :=
  let bindings := (s.file.map (EnvFile.read s.environment)).getD []
  (Assoc.ofList (folded bindings)).filterMap fun (name, v) => v.map (name, ·)

/-- The value of the first of some names in the environment, or else in the file. -/
def text? (s : Sources) (names : List String) : Option LooseText :=
  first? names s.environmentTable <|> first? names s.fileTable

/-- The value that goes by a name or by one of its aliases. Of names given outright that differ in
case only, the first counts. -/
def find? (s : Sources) (aliases : List String) (name : String) : Option Json :=
  first? (aliases ++ [name]) (folded s.given) <|>
    (s.text? aliases <|> s.text? [name]).map fun v => .string v

end Sources

/-- A value under its name, when one is given. -/
def setting (s : Sources) (name : String) (standard : α) (check : Check α) : Checked α :=
  match s.find? [] name with
  | none => value standard
  | some j => (check j).under (.field name)

/-- The complaint about an unknown mode repeats it, so the text must be one that can be sent. -/
def roundingMode (j : Json) : Checked Rounding :=
  match looseText j with
  | .value (.broken _) => .fault .unpaired
  | .value (.text s) =>
    let name := upper s
    match Rounding.ofName? name with
    | some mode => value mode
    | none => complain (.refused s!"Unknown rounding mode: {name}")
  | .remarks rs => .remarks rs
  | .fault f => .fault f

/-- A horizon that is a whole number. -/
def horizonOf : Json → Option Int
  | .string s => s.text?.bind integerText?
  | .int n => if digitCount n.natAbs ≤ mostDigits then some n else none
  | _ => none

/-- The settings from their sources, with every complaint about them. -/
def load (s : Sources) : Checked Settings :=
  Settings.mk <$> setting s "APP_NAME" standard.appName looseText
    <*> setting s "version" standard.version looseText
    <*> setting s "DEBUG" standard.debug truth
    <*> setting s "INVOICE_ROUNDING_MODE" standard.rounding roundingMode
    <*> setting s "INVOICE_NUMBER_OF_DECIMALS" standard.decimals (integerFrom 0)
    <*> pure (((s.find? horizonAliases horizonName).bind horizonOf).getD standard.horizon)

end Settings

end BillRun
