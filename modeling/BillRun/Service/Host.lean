import BillRun.Text.Digits
import BillRun.Text.Printable

/-! Hosts of addresses, and the numeric forms that some must have.

A host of digit groups with any three characters between them is taken for four octets and must be
that; a host in brackets must be eight groups of hexadecimal digits, of which a run may be left out.
Any other host is a name; of scripts besides the plain one only characters that print go into it. -/
namespace BillRun.Service.Host

open Text

/-- The list cut at each occurrence of a separator. -/
def cut (separator : Char) : List Char → List (List Char)
  | [] => [[]]
  | c :: cs =>
    match cut separator cs with
    | s :: rest => if c = separator then [] :: s :: rest else (c :: s) :: rest
    | [] => [[c]]

/-- Plain characters, and of the others such as print. -/
def isName (host : List Char) : Bool :=
  host.all fun c => c.toNat < 0x80 || (printable c && c ≠ '\ufffd')

/-! ### Four octets -/

/-- How far a text may be in four groups of digits: in which group, and whether past its start. -/
abbrev Progress := List (Nat × Bool)

/-- How far the text may be one character later. -/
def grouped (p : Progress) (c : Char) : Progress :=
  (p.flatMap fun (group, begun) =>
    (if isDigit c then [(group, true)] else []) ++
      if begun && group < 3 then [(group + 1, false)] else []).eraseDups

/-- Four groups of digits with any character between each two. -/
def looksNumeric (host : List Char) : Bool := (host.foldl grouped [(0, false)]).contains (3, true)

/-- A number up to 255, written without leading zeros. -/
def isOctet (cs : List Char) : Bool :=
  !cs.isEmpty && cs.all isDigit && cs.length ≤ 3 && (cs = ['0'] || cs.head? ≠ some '0') &&
    valueOf cs ≤ 255

def isFourOctets (host : List Char) : Bool :=
  let octets := cut '.' host
  octets.length = 4 && octets.all isOctet

/-! ### Eight groups -/

/-- Up to four hexadecimal digits. -/
def isGroup (cs : List Char) : Bool :=
  !cs.isEmpty && cs.length ≤ 4 && cs.all fun c => (hexValue? c).isSome

/-- The groups, four octets at the end counting as two. -/
def groups? (host : List Char) : Option (List (List Char)) :=
  let groups := cut ':' host
  match groups.getLast? with
  | some last =>
    if last.contains '.' then
      if isFourOctets last then some (groups.dropLast ++ [['0'], ['0']]) else none
    else some groups
  | none => none

/-- The groups before and after those left out, where two colons meet. -/
def halves (groups : List (List Char)) : List (List (List Char)) :=
  let gaps := (List.range groups.length).filter fun i =>
    0 < i && i + 1 < groups.length && groups[i]? = some []
  match gaps with
  | [i] => [groups.take i, groups.drop (i + 1)]
  | [] => [groups]
  | _ => []

/-- Without the empty group that two colons at an end of the host leave. -/
def trimmed (half : List (List Char)) : List (List Char) := if half = [[]] then [] else half

/-- Eight groups, or fewer where a run is left out, before an optional zone. -/
def isEightGroups (host : List Char) : Bool :=
  let zoned := match cut '%' host with
    | [address] => some address
    | [address, zone] => if zone.isEmpty then none else some address
    | _ => none
  match zoned.bind groups? with
  | none => false
  | some groups =>
    match halves groups with
    | [all] => all.length = 8 && all.all isGroup
    | [high, low] =>
      let given := trimmed high ++ trimmed low
      given.length < 8 && given.all isGroup
    | _ => false

end BillRun.Service.Host
