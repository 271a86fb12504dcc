import BillRun.Json.Value
import BillRun.Amount.Text

/-! Values in writing, without spaces. -/
namespace BillRun.Json

open Text

/-- A character inside a string. Quotes, backslashes and controls are escaped. -/
def escape (c : Char) : List Char :=
  if c = '"' then ['\\', '"']
  else if c = '\\' then ['\\', '\\']
  else if c.toNat < 0x20 then '\\' :: 'u' :: hexDigits 4 c.toNat
  else [c]

/-- A surrogate without a partner is written as its number. -/
def codeChars (n : Nat) : List Char :=
  if LooseText.isSurrogate n then '\\' :: 'u' :: hexDigits 4 n else escape (Char.ofNat n)

def stringChars : LooseText → List Char
  | .text s => '"' :: s.toList.flatMap escape ++ ['"']
  | .broken codes => '"' :: codes.flatMap codeChars ++ ['"']

/-- A floating-point number by its shortest digits, or the word for what is not finite. -/
def floatChars : Binary64 → List Char
  | .finite negative significand exponent =>
    (Binary64.toDecimal negative significand exponent).chars
  | .infinite false => "Infinity".toList
  | .infinite true => "-Infinity".toList
  | .notANumber => "NaN".toList

mutual

/-- A value in writing. -/
def chars : Json → List Char
  | null => "null".toList
  | bool true => "true".toList
  | bool false => "false".toList
  | int n => integer n
  | float x => floatChars x
  | string s => stringChars s
  | array elements => '[' :: elementsChars elements ++ [']']
  | object members => '\x7b' :: membersChars members ++ ['\x7d']

def elementsChars : List Json → List Char
  | [] => []
  | [j] => chars j
  | j :: rest => chars j ++ ',' :: elementsChars rest

/-- Names and values, with commas between the members. -/
def membersChars : List (LooseText × Json) → List Char
  | [] => []
  | [(name, j)] => stringChars name ++ ':' :: chars j
  | (name, j) :: rest => stringChars name ++ ':' :: chars j ++ ',' :: membersChars rest

end

def text (j : Json) : String := String.ofList j.chars

end BillRun.Json
