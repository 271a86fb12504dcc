import BillRun.Fault
import BillRun.Json.Value

/-! Reading forms: structured values checked field by field.

A check either yields a value or lists every complaint it has, each at its place; checks combine so
that all fields are looked at and complaints stand in the order of the fields. A fault, such as a
date that leaves the calendar, ends the reading at once. -/
namespace BillRun.Form

/-- What a check may find wrong with a value. -/
inductive Complaint where
  | missing
  | notARecord
  | notAList
  | unknownWord
  | notText
  | tooShort
  | tooLong
  | brokenText
  | notAnInteger
  | fractional
  | integerText
  | integerSize
  | tooSmall
  | tooLarge
  | notANumber
  | numberText
  | notFinite
  | notAnId
  | idText
  | notADate
  | dateText
  | noSuchDate
  | notATruthValue
  | truthText
  | badSyntax
  /-- A value that is refused for its own reason. -/
  | refused (reason : String)
deriving DecidableEq, Repr

namespace Complaint

/-- The name that a complaint goes by in replies. -/
def name : Complaint → String
  | missing => "missing"
  | notARecord => "model_attributes_type"
  | notAList => "list_type"
  | unknownWord => "enum"
  | notText => "string_type"
  | tooShort => "string_too_short"
  | tooLong => "string_too_long"
  | brokenText => "string_unicode"
  | notAnInteger => "int_type"
  | fractional => "int_from_float"
  | integerText => "int_parsing"
  | integerSize => "int_parsing_size"
  | tooSmall => "greater_than_equal"
  | tooLarge => "less_than_equal"
  | notANumber => "decimal_type"
  | numberText => "decimal_parsing"
  | notFinite => "finite_number"
  | notAnId => "uuid_type"
  | idText => "uuid_parsing"
  | notADate => "datetime_type"
  | dateText => "datetime_from_date_parsing"
  | noSuchDate => "datetime_parsing"
  | notATruthValue => "bool_type"
  | truthText => "bool_parsing"
  | badSyntax => "json_invalid"
  | refused _ => "value_error"

/-- The reason, where a value has its own. -/
def message? : Complaint → Option String
  | refused reason => some s!"Value error, {reason}"
  | _ => none

end Complaint

/-- A step from a value to a part of it. -/
inductive Place where
  | field (name : String)
  | index (n : Nat)
deriving DecidableEq, Repr

/-- A complaint and its place, from the outermost value inward. -/
structure Remark where
  place : List Place
  complaint : Complaint
deriving DecidableEq, Repr

/-- The part of a value that a step leads to. -/
def Place.get? (j : Json) : Place → Option Json
  | field name => j.get? name
  | index n => j.elements?.bind (·[n]?)

/-- The part of a value at a place. -/
def part? (place : List Place) (j : Json) : Option Json := place.foldlM Place.get? j

/-- What a remark on a value is about: the part at its place, or for a missing field the record
that lacks it. -/
def Remark.subject? (j : Json) (r : Remark) : Option Json :=
  part? (if r.complaint = .missing then r.place.dropLast else r.place) j

/-- A value, or remarks where there should be one, or a fault. -/
inductive Checked (α : Type) where
  | value (a : α)
  | remarks (rs : List Remark)
  | fault (f : Fault)

namespace Checked

def map (f : α → β) : Checked α → Checked β
  | value a => value (f a)
  | remarks rs => remarks rs
  | fault e => fault e

/-- Both are looked at, and what either complains of is kept. -/
def both (f : Checked (α → β)) (x : Checked α) : Checked β :=
  match f, x with
  | fault e, _ => fault e
  | _, fault e => fault e
  | value f, value a => value (f a)
  | value _, remarks rs => remarks rs
  | remarks rs, value _ => remarks rs
  | remarks rs, remarks ss => remarks (rs ++ ss)

instance : Applicative Checked where
  pure := value
  seq f x := both f (x ())

/-- A complaint about the value as a whole. -/
def complain (c : Complaint) : Checked α := remarks [⟨[], c⟩]

def ofExcept : Except Complaint α → Checked α
  | .ok a => value a
  | .error c => complain c

/-- The remarks as seen from the value that holds this one. -/
def under (p : Place) : Checked α → Checked α
  | value a => value a
  | remarks rs => remarks (rs.map fun r => { r with place := p :: r.place })
  | fault e => fault e

end Checked

open Checked

/-- A check of a value. -/
abbrev Check (α : Type) := Json → Checked α

/-- A field that must be there. -/
def required (name : String) (check : Check α) (j : Json) : Checked α :=
  (match j.get? name with
    | none => complain .missing
    | some v => check v).under (.field name)

/-- A field that counts as `a` when it is left out. -/
def withDefault (name : String) (a : α) (check : Check α) (j : Json) : Checked α :=
  (match j.get? name with
    | none => value a
    | some v => check v).under (.field name)

/-- Null, or what the check takes. -/
def nullable (check : Check α) : Check (Option α)
  | .null => value none
  | j => (check j).map some

/-- A field that may be left out or null. -/
def optionally (name : String) (check : Check α) : Json → Checked (Option α) :=
  withDefault name none (nullable check)

/-- The elements, each at its position; `first` is that of the first one. -/
def elements (check : Check α) : (first : Nat) → List Json → Checked (List α)
  | _, [] => value []
  | n, j :: rest => both ((check j).under (.index n) |>.map List.cons) (elements check (n + 1) rest)

def list (check : Check α) : Check (List α)
  | .array js => elements check 0 js
  | _ => complain .notAList

/-- A record with given fields. Members that no field asks for are ignored. -/
def record (fields : Json → Checked α) : Check α
  | .object members => fields (.object members)
  | _ => complain .notARecord

end BillRun.Form
