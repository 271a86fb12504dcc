import BillRun.Amount.Binary64
import BillRun.Assoc
import BillRun.Text.Loose

/-! Structured values.

Whole numbers written without a point or a power of ten are kept apart from the others. Objects keep
their members in order. Strings and names may hold surrogates without a partner, and numbers may be
infinite or none at all; `isFinite` and `isPaired` hold of the values without such parts, which are
those that can be sent. -/
namespace BillRun

inductive Json where
  | null
  | bool (b : Bool)
  | int (n : Int)
  | float (x : Binary64)
  | string (s : LooseText)
  | array (elements : List Json)
  | object (members : List (LooseText × Json))

namespace Json

/-- The object with members of the given names. -/
def record (members : List (String × Json)) : Json :=
  object (members.map fun (name, j) => (.text name, j))

/-- What there is, as `f` writes it; null where there is nothing. -/
def ofOption (f : α → Json) : Option α → Json
  | none => null
  | some a => f a

/-- The value of a member; nothing for what is not an object. -/
def get? (name : String) : Json → Option Json
  | object members => Assoc.get? (LooseText.text name) members
  | _ => none

/-- The value of a member that counts as absent when it is null. -/
def given? (name : String) (j : Json) : Option Json :=
  match j.get? name with
  | some null => none
  | v => v

def elements? : Json → Option (List Json)
  | array elements => some elements
  | _ => none

/-- The text of a string, if it can be encoded. -/
def string? : Json → Option String
  | string s => s.text?
  | _ => none

/-- The number, if it is written as a whole one. -/
def int? : Json → Option Int
  | int n => some n
  | _ => none

mutual

/-- Every number is finite. -/
def isFinite : Json → Bool
  | float x => x.isFinite
  | array elements => allFinite elements
  | object members => membersFinite members
  | _ => true

/-- Every element `isFinite`. -/
def allFinite : List Json → Bool
  | [] => true
  | j :: rest => j.isFinite && allFinite rest

/-- The value of every member `isFinite`. -/
def membersFinite : List (LooseText × Json) → Bool
  | [] => true
  | (_, j) :: rest => j.isFinite && membersFinite rest

end

mutual

/-- Every string and every name is a text. -/
def isPaired : Json → Bool
  | string s => s.text?.isSome
  | array elements => allPaired elements
  | object members => membersPaired members
  | _ => true

/-- Every element `isPaired`. -/
def allPaired : List Json → Bool
  | [] => true
  | j :: rest => j.isPaired && allPaired rest

/-- The name of every member is a text, and its value `isPaired`. -/
def membersPaired : List (LooseText × Json) → Bool
  | [] => true
  | (name, j) :: rest => name.text?.isSome && j.isPaired && membersPaired rest

end

end Json

end BillRun
