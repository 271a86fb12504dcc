import BillRun.Text.Digits
import BillRun.Text.Loose
import BillRun.Text.Printable

/-! A text shown in quotes.

Single quotes enclose it, double ones when it holds a single quote and no double one. The enclosing
quote, backslashes, surrogates and characters that do not print are escaped. -/
namespace BillRun.Text

/-- A character between quotes. -/
def escaped (quote c : Char) : List Char :=
  if c = quote ∨ c = '\\' then ['\\', c]
  else if c = '\t' then ['\\', 't']
  else if c = '\n' then ['\\', 'n']
  else if c = '\r' then ['\\', 'r']
  else if printable c then [c]
  else if c.toNat < 0x100 then '\\' :: 'x' :: hexDigits 2 c.toNat
  else if c.toNat < 0x10000 then '\\' :: 'u' :: hexDigits 4 c.toNat
  else '\\' :: 'U' :: hexDigits 8 c.toNat

/-- A code point between quotes; a surrogate stands as its number. -/
def escapedCode (quote : Char) (n : Nat) : List Char :=
  if LooseText.isSurrogate n then '\\' :: 'u' :: hexDigits 4 n else escaped quote (Char.ofNat n)

/-- The text in quotes, escaped where it must be. -/
def quoted (s : LooseText) : String :=
  let codes := s.codes
  let quote := if codes.contains '\''.toNat && !codes.contains '"'.toNat then '"' else '\''
  String.ofList (quote :: codes.flatMap (escapedCode quote) ++ [quote])

end BillRun.Text
