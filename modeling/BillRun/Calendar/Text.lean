import BillRun.Calendar.Moment
import BillRun.Text.Digits

/-! Moments in writing.

A moment is written as its date, a `T`, its time to the second, six digits of fraction when there
is one, and its offset; `zoned` writes a zero offset as `Z` and `text` writes it in digits. The
reader is wider: it takes a date alone, other separators, a missing second, a fraction of any
length (cut to microseconds) and several spellings of the offset. What it reads is a `Stamp`, the
fields as written, because a stamp may name the year 0, which no moment has. -/
namespace BillRun.Calendar

open BillRun.Text

namespace Moment

def dateText (d : Date) : List Char :=
  fixed 4 d.year ++ '-' :: fixed 2 d.month.number ++ '-' :: fixed 2 d.day

/-- Time of day; `clock` is in microseconds. -/
def clockText (clock : Nat) : List Char :=
  let seconds := clock / 1000000
  let fraction := clock % 1000000
  fixed 2 (seconds / 3600) ++ ':' :: fixed 2 (seconds / 60 % 60) ++ ':' :: fixed 2 (seconds % 60) ++
    if fraction = 0 then [] else '.' :: fixed 6 fraction

def offsetText (o : Offset) : List Char :=
  (if o.minutes < 0 then '-' else '+') ::
    fixed 2 (o.minutes.natAbs / 60) ++ ':' :: fixed 2 (o.minutes.natAbs % 60)

/-- The moment in writing, with its offset in digits when it has one. -/
def chars (t : Moment) : List Char :=
  dateText t.date ++ 'T' :: clockText t.clock ++ (t.offset.map offsetText).getD []

/-- As `chars`, with a zero offset written `Z`. -/
def zonedChars (t : Moment) : List Char :=
  if t.offset = some .utc then dateText t.date ++ 'T' :: clockText t.clock ++ ['Z'] else t.chars

def text (t : Moment) : String := String.ofList t.chars

def zoned (t : Moment) : String := String.ofList t.zonedChars

end Moment

/-- The fields of a written moment; the year may be 0. -/
structure Stamp where
  year : Nat
  month : Nat
  day : Nat
  clock : Nat
  clock_lt : clock < dayLength
  offset : Option Offset

namespace Stamp

/-- The moment that the fields name, when there is such a date. -/
def moment? (s : Stamp) : Option Moment :=
  (Date.of? s.year s.month s.day).map fun d => ⟨d, s.clock, s.clock_lt, s.offset⟩

/-- Year, month and day, of a day that its month has. -/
def readDate (cs : List Char) : Option ((Nat × Nat × Nat) × List Char) := do
  match ← readFixed 4 cs with
  | (year, '-' :: cs) =>
    match ← readFixed 2 cs with
    | (month, '-' :: cs) =>
      let (day, cs) ← readFixed 2 cs
      if 1 ≤ month ∧ month ≤ 12 ∧ 1 ≤ day ∧ day ≤ lengthAt (12 * year + (month - 1)) then
        some ((year, month, day), cs)
      else none
    | _ => none
  | _ => none

/-- Microseconds from the digits of a fraction of a second. -/
def fraction (digits : List Char) : Nat := valueOf ((digits ++ List.replicate 6 '0').take 6)

/-- Seconds and their fraction, when written; in microseconds. -/
def readSeconds : List Char → Option (Nat × List Char)
  | ':' :: cs => do
    let (second, cs) ← readFixed 2 cs
    if 59 < second then none
    else
      match cs with
      | '.' :: cs | ',' :: cs =>
        match spanDigits cs with
        | ([], _) => none
        | (digits, cs) => some (second * 1000000 + fraction digits, cs)
      | cs => some (second * 1000000, cs)
  | cs => some (0, cs)

/-- Microseconds of the day. -/
def readClock (cs : List Char) : Option (Nat × List Char) := do
  match ← readFixed 2 cs with
  | (hour, ':' :: cs) =>
    let (minute, cs) ← readFixed 2 cs
    if 23 < hour ∨ 59 < minute then none
    else
      let (seconds, cs) ← readSeconds cs
      some ((hour * 60 + minute) * minuteLength + seconds, cs)
  | _ => none

/-- Minutes of an offset after its sign. -/
def readOffset (cs : List Char) : Option Nat := do
  let (hours, cs) ← readFixed 2 cs
  let cs := match cs with
    | ':' :: cs => cs
    | cs => cs
  match ← readFixed 2 cs with
  | (minutes, []) => if minutes ≤ 59 then some (hours * 60 + minutes) else none
  | _ => none

/-- What follows the time: nothing, `Z`, or a signed offset. -/
def readZone : List Char → Option (Option Offset)
  | [] => some none
  | ['Z'] | ['z'] => some (some .utc)
  | sign :: cs => do
    let minutes : Int ← if sign = '+' then (readOffset cs).map Int.ofNat
      else if sign = '-' ∨ sign = '\u2212' then (readOffset cs).map (-·)
      else none
    if h : -1440 < minutes ∧ minutes < 1440 then some (some ⟨minutes, h⟩) else none

/-- The fields of a whole text. A date alone stands for the start of its day. -/
def read? (cs : List Char) : Option Stamp := do
  let ((year, month, day), cs) ← readDate cs
  match cs with
  | [] => some ⟨year, month, day, 0, by decide, none⟩
  | separator :: cs =>
    if separator = 'T' ∨ separator = 't' ∨ separator = ' ' ∨ separator = '_' then
      let (clock, cs) ← readClock cs
      let offset ← readZone cs
      if h : clock < dayLength then some ⟨year, month, day, clock, h, offset⟩ else none
    else none

end Stamp

/-- The moment that a text names, when its year exists. -/
def Moment.ofText? (s : String) : Option Moment := do (← Stamp.read? s.toList).moment?

end BillRun.Calendar
