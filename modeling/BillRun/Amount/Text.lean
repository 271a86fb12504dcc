import BillRun.Amount.Decimal

/-! Decimals in writing.

`chars` shows every digit of the coefficient. It writes a point where the exponent is not positive
and at most five zeros would follow the point, and otherwise one digit before the point and a power
of ten. The reader takes either form, and any number of digits; it refuses what is not `writable`,
an exponent of more than 18 digits or so. -/
namespace BillRun.Decimal

open Text

def zeros (n : Nat) : List Char := List.replicate n '0'

/-- Digits with a point before the last `places` of them. -/
def pointed (digits : List Char) (places : Nat) : List Char :=
  if places = 0 then digits
  else if digits.length ≤ places then '0' :: '.' :: zeros (places - digits.length) ++ digits
  else digits.take (digits.length - places) ++ '.' :: digits.drop (digits.length - places)

/-- A whole number with its sign, a plus included. -/
def signed (n : Int) : List Char := (if n < 0 then '-' else '+') :: natural n.natAbs

/-- The decimal in writing, with every digit of its coefficient. -/
def chars (d : Decimal) : List Char :=
  let digits := natural d.coefficient
  (if d.negative then ['-'] else []) ++
    if d.exponent ≤ 0 ∧ -6 ≤ d.adjusted then pointed digits d.exponent.natAbs
    else pointed digits (digits.length - 1) ++ 'E' :: signed d.adjusted

def text (d : Decimal) : String := String.ofList d.chars

/-- The largest power of ten a written number may have. -/
def largestWritten : Int := 999999999999999999

/-- The smallest exponent a written number may have. -/
def smallestWritten : Int := -1999999999999999997

/-- An optional sign: whether it is a minus, and what follows. -/
def readSign : List Char → Bool × List Char
  | '-' :: cs => (true, cs)
  | '+' :: cs => (false, cs)
  | cs => (false, cs)

/-- Digits before and after the point, at least one in all. -/
def readDigits (cs : List Char) : Option ((List Char × List Char) × List Char) :=
  let (whole, cs) := spanDigits cs
  let (fraction, cs) := match cs with
    | '.' :: cs => spanDigits cs
    | cs => ([], cs)
  if whole.isEmpty && fraction.isEmpty then none else some ((whole, fraction), cs)

/-- The power of ten after the digits, to the end of the text. -/
def readExponent (cs : List Char) : Option Int :=
  match cs with
  | [] => some 0
  | e :: cs =>
    if e = 'e' ∨ e = 'E' then
      let (negative, cs) := readSign cs
      match spanDigits cs with
      | ([], _) | (_, _ :: _) => none
      | (digits, []) => some (if negative then -(valueOf digits) else valueOf digits)
    else none

/-- Whether the number lies within what is read. -/
def writable (d : Decimal) : Bool :=
  smallestWritten ≤ d.exponent && (if d.isZero then d.exponent else d.adjusted) ≤ largestWritten

/-- The number that a whole text writes, if it lies within what is read. -/
def ofChars? (cs : List Char) : Option Decimal := do
  let (negative, cs) := readSign cs
  let ((whole, fraction), cs) ← readDigits cs
  let power ← readExponent cs
  let d : Decimal := ⟨negative, valueOf (whole ++ fraction), power - fraction.length⟩
  if d.writable then some d else none

def ofText? (s : String) : Option Decimal := ofChars? s.toList

end BillRun.Decimal
