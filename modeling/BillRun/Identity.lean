import BillRun.Text.Quoted

/-! Identifiers of 128 bits.

They are written as 32 hexadecimal digits in groups of 8, 4, 4, 4 and 12, and order as their text
does, which is the order of the numbers. The reader also takes the digits without hyphens, and the
grouped form in braces or after `urn:uuid:`. -/
namespace BillRun

open Text

/-- An identifier, as the number that its digits write. -/
structure Uuid where
  value : BitVec 128
deriving DecidableEq, Repr

namespace Uuid

/-- The identifier in writing: five groups of digits. -/
def chars (u : Uuid) : List Char :=
  let n := u.value.toNat
  hexDigits 8 (n >>> 96) ++ '-' :: hexDigits 4 (n >>> 80) ++ '-' :: hexDigits 4 (n >>> 64) ++
    '-' :: hexDigits 4 (n >>> 48) ++ '-' :: hexDigits 12 n

def text (u : Uuid) : String := String.ofList u.chars

/-- Reads groups of the given widths with a hyphen between each two. -/
def readGroups (value : Nat) : (widths : List Nat) → List Char → Option (Nat × List Char)
  | [], cs => some (value, cs)
  | [width], cs => readHexFrom value width cs
  | width :: widths, cs => do
    match ← readHexFrom value width cs with
    | (value, '-' :: cs) => readGroups value widths cs
    | _ => none

/-- From five groups with hyphens between them. -/
def ofGrouped? (cs : List Char) : Option Uuid := do
  match ← readGroups 0 [8, 4, 4, 4, 12] cs with
  | (n, []) => some ⟨.ofNat 128 n⟩
  | _ => none

def ofPlain? (cs : List Char) : Option Uuid := do
  match ← readHexFrom 0 32 cs with
  | (n, []) => some ⟨.ofNat 128 n⟩
  | _ => none

/-- From any form that the reader takes. -/
def ofChars? (cs : List Char) : Option Uuid :=
  match cs with
  | '\x7b' :: cs => if cs.getLast? = some '\x7d' then ofGrouped? cs.dropLast else none
  | 'u' :: 'r' :: 'n' :: ':' :: 'u' :: 'u' :: 'i' :: 'd' :: ':' :: cs => ofGrouped? cs
  | cs => if cs.length = 32 then ofPlain? cs else ofGrouped? cs

def ofText? (s : String) : Option Uuid := ofChars? s.toList

end Uuid

end BillRun
