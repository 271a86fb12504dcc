import BillRun.Amount.Text
import BillRun.Form.Scalar

/-! Single values in forms.

Requests and invoices hold identifiers, moments and amounts. How these are read and written is no
concern of the forms around them, and comes as one record of readers and writers. -/
namespace BillRun.Service

open Calendar Form

/-- How identifiers, moments and amounts are read from forms and written into them. -/
class Scalars where
  readUuid : Check Uuid
  readMoment : Check Moment
  readAmount : Check Decimal
  writeUuid : Uuid → Json
  writeMoment : Moment → Json
  writeAmount : Decimal → Json

/-- An identifier in hexadecimal digits, in groups. -/
def ofUuid (u : Uuid) : Json := .string u.text

/-- A moment with its date, its time of day and its offset. -/
def ofMoment (t : Moment) : Json := .string t.zoned

/-- An amount as text, so that its exponent shows. -/
def ofDecimal (d : Decimal) : Json := .string d.text

/-- The readers and writers of the service. -/
instance Scalars.standard : Scalars where
  readUuid := identifier
  readMoment := moment
  readAmount := amount
  writeUuid := ofUuid
  writeMoment := ofMoment
  writeAmount := ofDecimal

end BillRun.Service
