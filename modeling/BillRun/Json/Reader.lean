import BillRun.Json.Value

/-! Values, read from text.

A text that is no value fails at an offset, the count of characters before the place where reading
stopped; a string that is not closed fails where it opens. Besides the standard grammar the reader
takes `NaN`, `Infinity` and `-Infinity`. It does not take control characters inside strings. Where a
name is written twice, the last value counts. Whole numbers of more than `mostDigits` digits, and
values nested deeper than `deepest`, are `unreadable`.

In a text with surrogates that stand alone these may be part of a string. The reader meets a
character that means nothing in their places, and is told by `stray?` what stands at an offset. -/
namespace BillRun.Json

open Text

/-- Why a text is not read: it goes wrong at an offset, or has too many digits or levels. -/
inductive ReadFault where
  | malformed (offset : Nat)
  | unreadable
deriving DecidableEq, Repr

/-- What is left to read, and how much was read before it. -/
structure Cursor where
  offset : Nat
  rest : List Char

namespace Cursor

/-- Past the next `n` characters. -/
def advance (c : Cursor) (n : Nat) : Cursor := ⟨c.offset + n, c.rest.drop n⟩

def isGap (c : Char) : Bool := c = ' ' || c = '\t' || c = '\n' || c = '\r'

def skip (c : Cursor) : Cursor := c.advance (c.rest.takeWhile isGap).length

/-- The cursor after a word, when the word comes next. -/
def after? (c : Cursor) (word : String) : Option Cursor :=
  if word.toList.isPrefixOf c.rest then some (c.advance word.length) else none

end Cursor

/-! ### Strings -/

/-- What a letter after a backslash stands for. -/
def escapeValue? : Char → Option Nat
  | '"' => some '"'.toNat
  | '\\' => some '\\'.toNat
  | '/' => some '/'.toNat
  | 'b' => some 8
  | 'f' => some 12
  | 'n' => some 10
  | 'r' => some 13
  | 't' => some 9
  | _ => none

/-- What stands at an offset, where it is no character. -/
abbrev Strays := Nat → Option Nat

/-- One more code point from an escape, the last one first; two surrogates in a row make one when
the one before comes from an escape too. -/
def afterEscape (escaped : Bool) (read : List Nat) (n : Nat) : List Nat :=
  match read with
  | last :: before =>
    if escaped && LooseText.isHigh last && LooseText.isLow n then LooseText.joined last n :: before
    else n :: read
  | [] => [n]

/-- Reads up to the closing quote; `opening` is the offset of the opening one, and `escaped` tells
whether what was read last is an escape. -/
def readCodes (stray? : Strays) (opening : Nat) : (offset : Nat) → List Char → (escaped : Bool) →
    (read : List Nat) → Except ReadFault (List Nat × Cursor)
  | _, [], _, _ => .error (.malformed opening)
  | offset, '"' :: cs, _, read => .ok (read.reverse, ⟨offset + 1, cs⟩)
  | _, ['\\'], _, _ => .error (.malformed opening)
  | offset, '\\' :: 'u' :: a :: b :: c :: d :: cs, escaped, read =>
    match readHexFrom 0 4 [a, b, c, d] with
    | some (n, _) =>
      if cs.isEmpty then .error (.malformed (offset + 1))
      else readCodes stray? opening (offset + 6) cs true (afterEscape escaped read n)
    | none => .error (.malformed (offset + 1))
  | offset, '\\' :: 'u' :: _, _, _ => .error (.malformed (offset + 1))
  | offset, '\\' :: e :: cs, _, read =>
    match escapeValue? e with
    | some n => readCodes stray? opening (offset + 2) cs true (n :: read)
    | none => .error (.malformed offset)
  | offset, c :: cs, _, read =>
    if c.toNat < 0x20 then .error (.malformed offset)
    else readCodes stray? opening (offset + 1) cs false ((stray? offset).getD c.toNat :: read)

/-! ### Numbers -/

/-- The digits of a whole number: a zero alone, or digits that begin with another. -/
def wholeDigits (cs : List Char) : List Char :=
  match spanDigits cs with
  | ('0' :: _, _) => ['0']
  | (digits, _) => digits

/-- The digits of a fraction, when at least one follows the point. -/
def fractionDigits : List Char → List Char
  | '.' :: cs => (spanDigits cs).1
  | _ => []

/-- The power of ten and its length in writing, when at least one digit makes it up. -/
def powerOf (cs : List Char) : Option (Int × Nat) :=
  match cs with
  | e :: cs =>
    if e = 'e' ∨ e = 'E' then
      let (negative, signs, cs) := match cs with
        | '-' :: cs => (true, 1, cs)
        | '+' :: cs => (false, 1, cs)
        | cs => (false, 0, cs)
      let digits := (spanDigits cs).1
      let n : Int := valueOf digits
      if digits.isEmpty then none else some (if negative then -n else n, 1 + signs + digits.length)
    else none
  | [] => none

/-- A number: whole, or of 64 bits when it has a fraction or a power of ten. -/
def readNumber (c : Cursor) : Except ReadFault (Json × Cursor) :=
  let (negative, start) := match c.rest with
    | '-' :: _ => (true, c.advance 1)
    | _ => (false, c)
  let whole := wholeDigits start.rest
  if whole.isEmpty then .error (.malformed c.offset)
  else
    let rest := start.advance whole.length
    let fraction := fractionDigits rest.rest
    let rest := if fraction.isEmpty then rest else rest.advance (1 + fraction.length)
    let scaled (power : Int) : Json :=
      float (.ofDecimal negative (valueOf (whole ++ fraction)) (power - fraction.length))
    match powerOf rest.rest with
    | some (power, length) => .ok (scaled power, rest.advance length)
    | none =>
      if !fraction.isEmpty then .ok (scaled 0, rest)
      else if mostDigits < whole.length then .error .unreadable
      else
        let n : Int := valueOf whole
        .ok (int (if negative then -n else n), rest)

/-! ### Values -/

/-- The words that stand for a value. -/
def words : List (String × Json) :=
  [("null", null), ("true", bool true), ("false", bool false), ("NaN", float .notANumber),
    ("Infinity", float (.infinite false)), ("-Infinity", float (.infinite true))]

def readWord? (c : Cursor) : Option (Json × Cursor) :=
  words.findSome? fun (word, j) => (c.after? word).map (j, ·)

section Nested

variable (stray? : Strays)

mutual

/-- `depth` is how far the value may nest. -/
def readValue : (fuel depth : Nat) → Cursor → Except ReadFault (Json × Cursor)
  | 0, _, _ | _, 0, _ => .error .unreadable
  | fuel + 1, depth + 1, c =>
    match c.rest with
    | [] => .error (.malformed c.offset)
    | '"' :: cs => do
      let (codes, c) ← readCodes stray? c.offset (c.offset + 1) cs false []
      return (string (.ofCodes codes), c)
    | '\x7b' :: _ => do
      let c := (c.advance 1).skip
      match c.rest with
      | '\x7d' :: _ => return (object [], c.advance 1)
      | _ =>
        let (members, c) ← readMembers fuel depth c
        return (object (Assoc.ofList members), c)
    | '[' :: _ => do
      let c := (c.advance 1).skip
      match c.rest with
      | ']' :: _ => return (array [], c.advance 1)
      | _ =>
        let (elements, c) ← readElements fuel depth c
        return (array elements, c)
    | _ =>
      match readWord? c with
      | some found => .ok found
      | none => readNumber c

/-- One element or more, up to the closing bracket. -/
def readElements : (fuel depth : Nat) → Cursor → Except ReadFault (List Json × Cursor)
  | 0, _, _ => .error .unreadable
  | fuel + 1, depth, c => do
    let (j, c) ← readValue fuel depth c
    let c := c.skip
    match c.rest with
    | ']' :: _ => return ([j], c.advance 1)
    | ',' :: _ =>
      let (rest, c) ← readElements fuel depth (c.advance 1).skip
      return (j :: rest, c)
    | _ => throw (.malformed c.offset)

/-- One member or more, up to the closing brace. -/
def readMembers : (fuel depth : Nat) → Cursor → Except ReadFault (List (LooseText × Json) × Cursor)
  | 0, _, _ => .error .unreadable
  | fuel + 1, depth, c => do
    match c.rest with
    | '"' :: cs =>
      let (codes, c) ← readCodes stray? c.offset (c.offset + 1) cs false []
      let name := LooseText.ofCodes codes
      let c := c.skip
      match c.rest with
      | ':' :: _ =>
        let (j, c) ← readValue fuel depth (c.advance 1).skip
        let c := c.skip
        match c.rest with
        | '\x7d' :: _ => return ([(name, j)], c.advance 1)
        | ',' :: _ =>
          let (rest, c) ← readMembers fuel depth (c.advance 1).skip
          return ((name, j) :: rest, c)
        | _ => throw (.malformed c.offset)
      | _ => throw (.malformed c.offset)
    | _ => throw (.malformed c.offset)

end

end Nested

/-- How far values may nest. -/
def deepest : Nat := 965

/-- The value that all the characters make, but for blanks around it. -/
def readWith (stray? : Strays) (cs : List Char) : Except ReadFault Json := do
  let (j, c) ← readValue stray? (2 * cs.length + 2) deepest (Cursor.skip ⟨0, cs⟩)
  let c := c.skip
  if c.rest.isEmpty then return j else throw (.malformed c.offset)

/-- The value that a whole text is. -/
def read (text : String) : Except ReadFault Json := readWith (fun _ => none) text.toList

/-- As `read`, of text in which surrogates may stand alone. -/
def readLoose : LooseText → Except ReadFault Json
  | .text s => read s
  | .broken codes =>
    let known := codes.toArray
    let stray? (offset : Nat) := known[offset]?.filter LooseText.isSurrogate
    readWith stray? (codes.map LooseText.char)

end BillRun.Json
