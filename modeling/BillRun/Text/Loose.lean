/-! Text in which surrogates may stand alone.

Some sources give text as code units and do not see to it that surrogates come in pairs. Such text
can be kept and compared as code points, but it is no `String` and cannot be encoded. `ofCodes`
gives a `String` whenever there is no surrogate; `ofUnits` joins the pairs first. -/
namespace BillRun

/-- A text, or code points that make none. -/
inductive LooseText where
  | text (s : String)
  /-- Code points, some of them surrogates. -/
  | broken (codes : List Nat)
deriving DecidableEq, Repr

namespace LooseText

instance : Coe String LooseText := ⟨text⟩

/-- The text, if it is one. -/
def text? : LooseText → Option String
  | text s => some s
  | broken _ => none

/-- A surrogate that comes first in a pair. -/
def isHigh (n : Nat) : Bool := 0xd800 ≤ n && n < 0xdc00

/-- A surrogate that comes second in a pair. -/
def isLow (n : Nat) : Bool := 0xdc00 ≤ n && n < 0xe000

/-- Either half of a pair. -/
def isSurrogate (n : Nat) : Bool := isHigh n || isLow n

/-- The code point that a high surrogate and a low one make. -/
def joined (high low : Nat) : Nat := 0x10000 + (high - 0xd800) * 0x400 + (low - 0xdc00)

/-- The code points of code units: a high surrogate and a low one right after it make one. -/
def joinPairs : List Nat → List Nat
  | n :: m :: rest =>
    if isHigh n && isLow m then joined n m :: joinPairs rest else n :: joinPairs (m :: rest)
  | rest => rest

def codes : LooseText → List Nat
  | text s => s.toList.map Char.toNat
  | broken codes => codes

/-- The character of a code point; in the place of a surrogate one that means nothing. -/
def char (code : Nat) : Char := if isSurrogate code then '\ufffd' else Char.ofNat code

/-- The text that code points make, if there is no surrogate among them. -/
def ofCodes (codes : List Nat) : LooseText :=
  if codes.any isSurrogate then broken codes else text (String.ofList (codes.map Char.ofNat))

/-- As `ofCodes`, with the pairs joined first. -/
def ofUnits (units : List Nat) : LooseText := ofCodes (joinPairs units)

end LooseText

end BillRun
