/-! Blank characters, and their removal at both ends of a text.

`isBlank` is the wide class that also holds the four separators U+001C to U+001F; `isSpace` leaves
these out. -/
namespace BillRun.Text

/-- A blank, but none of the four separators. -/
def isSpace (c : Char) : Bool :=
  let n := c.toNat
  (9 ≤ n && n ≤ 13) || n = 32 || n = 0x85 || n = 0xa0 || n = 0x1680 || (0x2000 ≤ n && n ≤ 0x200a) ||
    n = 0x2028 || n = 0x2029 || n = 0x202f || n = 0x205f || n = 0x3000

/-- Any blank, the separators included. -/
def isBlank (c : Char) : Bool := isSpace c || (0x1c ≤ c.toNat && c.toNat ≤ 0x1f)

/-- Without what `p` holds of at either end. -/
def dropEnds (p : Char → Bool) (cs : List Char) : List Char :=
  (((cs.dropWhile p).reverse).dropWhile p).reverse

/-- Without blanks at the ends. -/
def stripBlanks (cs : List Char) : List Char := dropEnds isBlank cs

def stripSpaces (cs : List Char) : List Char := dropEnds isSpace cs

end BillRun.Text
