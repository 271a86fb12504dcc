import BillRun.Amount.Text
import BillRun.Calendar.Shift
import BillRun.Calendar.Timestamp
import BillRun.Form.Check
import BillRun.Identity
import BillRun.Text.Blank
import BillRun.Text.Numeral

/-! Checks of single values.

Whole numbers and amounts may come as numbers or as text, truth values count as whole numbers 1
and 0, and moments come as text or as seconds. What is read as a moment is converted to UTC. Only
`looseText` takes text in which surrogates stand alone. -/
namespace BillRun.Form

open Calendar Checked Text

/-- Any text at all. -/
def looseText : Check LooseText
  | .string s => value s
  | _ => complain .notText

/-- Text that can be encoded. -/
def text : Check String
  | .string (.text s) => value s
  | .string (.broken _) => complain .brokenText
  | _ => complain .notText

/-- Text of a given length in characters. -/
def textOfLength (n : Nat) : Check String
  | .string (.text s) =>
    if s.length < n then complain .tooShort else if n < s.length then complain .tooLong else value s
  | j => text j

def word (ofName? : String → Option α) : Check α
  | .string (.text s) =>
    match ofName? s with
    | some a => value a
    | none => complain .unknownWord
  | _ => complain .unknownWord

def identifier : Check Uuid
  | .string (.text s) =>
    match Uuid.ofText? s with
    | some u => value u
    | none => complain .idText
  | .string (.broken _) => complain .idText
  | _ => complain .notAnId

/-! ### Whole numbers -/

/-- Without leading zeros, among which underscores may stand; the last zero stays when no digit or
sign follows it. -/
def dropZeros (cs : List Char) : List Char :=
  match cs with
  | '0' :: _ =>
    let rest := cs.dropWhile fun c => c = '0' || c = '_'
    match rest with
    | [] => cs.drop (cs.length - 1)
    | '.' :: _ => cs.drop (cs.length - rest.length - 1)
    | rest => rest
  | cs => cs

/-- Without a fraction of zeros. -/
def dropFraction (cs : List Char) : List Char :=
  match cs.span (· ≠ '.') with
  | (whole, '.' :: fraction) =>
    if !fraction.isEmpty && fraction.all (· = '0') then whole else cs
  | _ => cs

/-- Without underscores, when they stand singly between other characters. -/
def dropUnderscores (cs : List Char) : List Char :=
  let doubled := (cs.zip cs.tail).any fun (a, b) => a = '_' && b = '_'
  if cs.head? = some '_' ∨ cs.getLast? = some '_' ∨ doubled then cs else cs.filter (· ≠ '_')

/-- Without a plus sign, leading zeros, a fraction of zeros, and underscores. A minus sign comes
first or after leading zeros. -/
def tidy (cs : List Char) : List Char :=
  let bare (cs : List Char) := dropUnderscores (dropFraction (dropZeros cs))
  match cs with
  | '-' :: cs => '-' :: bare cs
  | '+' :: '-' :: _ => cs
  | '+' :: cs | cs => bare cs

/-- Digits that do not begin with a zero, or a zero alone, after an optional minus sign. -/
def plainInteger? (cs : List Char) : Option Int :=
  let (negative, digits) := match cs with
    | '-' :: digits => (true, digits)
    | digits => (false, digits)
  let padded := digits.head? = some '0' ∧ digits ≠ ['0']
  if digits.isEmpty || !digits.all isDigit || padded || mostDigits < digits.length then none
  else some (if negative then -(valueOf digits) else valueOf digits)

/-- Too many digits right at the start, whatever follows them. -/
def overlong (cs : List Char) : Bool :=
  let digits := (spanDigits (match cs with
    | '-' :: cs | cs => cs)).1
  digits.head? ≠ some '0' && mostDigits < digits.length

/-- A whole number in text; the count of its first digits is looked at before anything else. -/
def integerOfText (cs : List Char) : Except Complaint Int :=
  if overlong cs then .error .integerSize
  else
    match plainInteger? (tidy (stripSpaces cs)) with
    | some n => .ok n
    | none => .error .integerText

/-- A floating-point number without a fraction, below `2 ^ 63` either way. -/
def integerOfFloat : Binary64 → Except Complaint Int
  | .finite negative significand exponent =>
    let (n, fractional) := Binary64.whole significand exponent
    if fractional then .error .fractional
    else if 0x8000000000000000 ≤ n then .error .integerSize
    else .ok (if negative then -n else n)
  | _ => .error .notFinite

/-- A whole number, given as a number, as a truth value or as text. -/
def integer : Check Int
  | .int n => value n
  | .bool b => value (if b then 1 else 0)
  | .float x => ofExcept (integerOfFloat x)
  | .string (.text s) => ofExcept (integerOfText s.toList)
  | .string (.broken _) => complain .brokenText
  | _ => complain .notAnInteger

/-- A whole number that is not below `low`. -/
def integerFrom (low : Int) (j : Json) : Checked Int :=
  match integer j with
  | .value n => if n < low then complain .tooSmall else value n
  | c => c

/-! ### Amounts -/

/-- The names of what is no number, or no finite one. -/
def namesNoNumber (cs : List Char) : Bool :=
  let cs := (Decimal.readSign cs).2.map Char.toLower
  cs = "inf".toList || cs = "infinity".toList ||
    ["nan", "snan"].any fun name => name.toList.isPrefixOf cs && (cs.drop name.length).all isDigit

/-- Blanks at the ends and underscores anywhere do not count, and digits may be of any script. -/
def amountOfText (s : String) : Except Complaint Decimal :=
  let cs := plainDigits ((stripBlanks s.toList).filter (· ≠ '_'))
  if namesNoNumber cs then .error .notFinite
  else
    match Decimal.ofChars? cs with
    | some d => .ok d
    | none => .error .numberText

/-- Only amounts that can be read back once written. -/
def writableAmount (d : Decimal) : Checked Decimal :=
  if d.writable then value d else complain .numberText

/-- An amount, as a number or as text; a floating-point number counts as its shortest digits. -/
def amount : Check Decimal
  | .int n => writableAmount (.ofInt n)
  | .float (.finite negative significand exponent) =>
    writableAmount (Binary64.toDecimal negative significand exponent)
  | .float _ => complain .notFinite
  | .string (.text s) => ofExcept (amountOfText s)
  | .string (.broken _) => complain .numberText
  | _ => complain .notANumber

/-! ### Moments -/

/-- The moment read in UTC; a fault when it leaves the calendar there. -/
def inUtc (t : Moment) : Checked Moment :=
  match t.toUtc with
  | .ok t => value t
  | .error f => .fault f

/-- The year 0 can be written, but no moment lies in it. -/
def momentOfStamp (stamp : Stamp) : Checked Moment :=
  match stamp.moment? with
  | some t => inUtc t
  | none => complain .noSuchDate

/-- The moment in UTC with a count of microseconds. -/
def momentOfCount (count : Int) : Checked Moment :=
  match Moment.ofLocalCount? count (some .utc) with
  | some t => value t
  | none => complain .noSuchDate

/-- A moment in writing, or a number of seconds in writing. -/
def momentOfText (cs : List Char) : Checked Moment :=
  match Stamp.read? cs with
  | some stamp => momentOfStamp stamp
  | none =>
    match Timestamp.ofChars? cs with
    | some count => momentOfCount count
    | none => complain .dateText

def momentOfNumber : Option Int → Checked Moment
  | some count => momentOfCount count
  | none => complain .noSuchDate

/-- A moment, given as text or as a number of seconds, and read in UTC. -/
def moment : Check Moment
  | .string (.text s) => momentOfText s.toList
  | .string (.broken _) => complain .brokenText
  | .int n => momentOfNumber (Timestamp.ofInt? n)
  | .float x => momentOfNumber (Timestamp.ofFloat? x)
  | _ => complain .notADate

/-! ### Truth values -/

def truthOfText (s : String) : Except Complaint Bool :=
  let s := s.map Char.toLower
  if ["1", "t", "true", "y", "yes", "on"].contains s then .ok true
  else if ["0", "f", "false", "n", "no", "off"].contains s then .ok false
  else .error .truthText

/-- A truth value as the number 1 or 0. -/
def truthOfInteger (n : Int) : Checked Bool :=
  if n = 0 then value false else if n = 1 then value true else complain .truthText

/-- A truth value, as itself, as a word or as a number. -/
def truth : Check Bool
  | .bool b => value b
  | .string (.text s) => ofExcept (truthOfText s)
  | .string (.broken _) => complain .brokenText
  | .int n =>
    if -0x8000000000000000 ≤ n ∧ n < 0x8000000000000000 then truthOfInteger n
    else complain .notATruthValue
  | .float x =>
    match integerOfFloat x with
    | .ok n => truthOfInteger n
    | .error _ => complain .notATruthValue
  | _ => complain .notATruthValue

end BillRun.Form
