import BillRun.Text.Loose

/-! Text sent as bytes.

The encoding is told from the first bytes: a plain character that takes two or four bytes has its
zero bytes in known places. `decode?` gives the text, and nothing when the bytes do not fit the
encoding that they begin with. Surrogates may stand alone in UTF-16 and in UTF-32, where they are
not even joined in pairs. A byte order mark before UTF-8 does not count. -/
namespace BillRun.Text

inductive Encoding where
  | utf8
  | utf16 (lowFirst : Bool)
  | utf32 (lowFirst : Bool)
deriving DecidableEq, Repr

namespace Encoding

/-- The encoding that the first bytes show. -/
def ofBytes : List Nat → Encoding
  | [a, b] => if a = 0 then utf16 false else if b = 0 then utf16 true else utf8
  | a :: b :: c :: d :: _ =>
    if a = 0 then if b = 0 then utf32 false else utf16 false
    else if b = 0 then if c = 0 ∧ d = 0 then utf32 true else utf16 true
    else utf8
  | _ => utf8

/-- The number that some bytes make, the high one first. -/
def number (bytes : List Nat) : Nat := bytes.foldl (fun n b => n * 256 + b) 0

/-- Units of two bytes. -/
def pairs? (lowFirst : Bool) : List Nat → Option (List Nat)
  | [] => some []
  | a :: b :: rest =>
    (pairs? lowFirst rest).map (number (if lowFirst then [b, a] else [a, b]) :: ·)
  | _ => none

/-- Units of four bytes. -/
def quads? (lowFirst : Bool) : List Nat → Option (List Nat)
  | [] => some []
  | a :: b :: c :: d :: rest =>
    (quads? lowFirst rest).map
      (number (if lowFirst then [d, c, b, a] else [a, b, c, d]) :: ·)
  | _ => none

/-- The text that was sent as UTF-8, read in the encoding that its bytes show. -/
def decode? (sent : String) : Option LooseText :=
  let bytes := sent.toUTF8.toList.map UInt8.toNat
  match ofBytes bytes with
  | utf8 =>
    match sent.toList with
    | '\ufeff' :: cs => some (String.ofList cs)
    | _ => some sent
  | utf16 lowFirst => (pairs? lowFirst bytes).map .ofUnits
  | utf32 lowFirst => do
    let codes ← quads? lowFirst bytes
    if codes.all (· < 0x110000) then some (.ofCodes codes) else none

end Encoding

end BillRun.Text
