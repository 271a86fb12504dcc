import BillRun.Calendar.Date

/-! Moments: a date and a time of day, read in some offset from UTC or in none.

Calendar arithmetic works on the local fields and keeps the offset. Two moments that both carry
an offset compare by `instant`, the microseconds counted in UTC; two that carry none compare by
their fields; between the two kinds there is no order. `Mark` is what equality sees of a moment:
whether it is anchored by an offset, and its instant. -/
namespace BillRun.Calendar

/-- Microseconds in a day. -/
def dayLength : Nat := 86400000000

/-- Microseconds in a minute. -/
def minuteLength : Nat := 60000000

/-- Minutes east of UTC, less than a day either way. -/
structure Offset where
  minutes : Int
  bounded : -1440 < minutes ∧ minutes < 1440
deriving DecidableEq

def Offset.utc : Offset := ⟨0, by decide⟩

/-- `clock` is the microsecond of the day. -/
structure Moment where
  date : Date
  clock : Nat
  clock_lt : clock < dayLength
  offset : Option Offset
deriving DecidableEq

/-- What equality sees of a moment. -/
structure Mark where
  anchored : Bool
  instant : Int
deriving DecidableEq, Repr

namespace Moment

/-- Minutes east of UTC; 0 for a moment without an offset. -/
def offsetMinutes (t : Moment) : Int :=
  match t.offset with
  | some o => o.minutes
  | none => 0

/-- Microseconds in the moment's own fields, before any offset. -/
def localCount (t : Moment) : Int := t.date.dayNumber * dayLength + t.clock

/-- Microseconds in UTC; a moment without an offset is counted as it reads. -/
def instant (t : Moment) : Int := t.localCount - t.offsetMinutes * minuteLength

/-- The moment as equality sees it: in another offset it stays the same. -/
def mark (t : Moment) : Mark := ⟨t.offset.isSome, t.instant⟩

/-- Both carry an offset, or neither does. -/
def Comparable (s t : Moment) : Prop := s.offset.isSome = t.offset.isSome

instance (s t : Moment) : Decidable (Comparable s t) := inferInstanceAs (Decidable (_ = _))

theorem dayLength_pos : 0 < (dayLength : Int) := by decide

theorem toNat_emod_dayLength (count : Int) :
    ((count % dayLength).toNat : Int) = count % dayLength :=
  Int.toNat_of_nonneg (Int.emod_nonneg count (Int.ne_of_gt dayLength_pos))

theorem toNat_emod_dayLength_lt (count : Int) : (count % dayLength).toNat < dayLength := by
  have := count.emod_lt_of_pos dayLength_pos
  have := toNat_emod_dayLength count
  omega

/-- The moment with the given count of microseconds in its own fields. -/
def ofLocalCount? (count : Int) (offset : Option Offset) : Option Moment :=
  (Date.ofDayNumber? (count / dayLength)).map fun d =>
    ⟨d, (count % dayLength).toNat, toNat_emod_dayLength_lt count, offset⟩

/-- The same instant read in UTC, when the calendar still holds it; a moment without an offset
is taken to read UTC already. -/
def toUtc? (t : Moment) : Option Moment :=
  if t.offsetMinutes = 0 then some { t with offset := some .utc }
  else ofLocalCount? t.instant (some .utc)

theorem ofLocalCount?_localCount (t : Moment) (offset : Option Offset) :
    ofLocalCount? t.localCount offset = some { t with offset } := by
  have hlt := t.clock_lt
  have hpos := dayLength_pos
  have hdiv : t.localCount / dayLength = t.date.dayNumber := by
    rw [localCount, Int.add_comm, Int.add_mul_ediv_right _ _ (by omega),
      Int.ediv_eq_zero_of_lt (by omega) (by omega), Int.zero_add]
  have hmod : t.localCount % dayLength = t.clock := by
    rw [localCount, Int.add_comm, Int.add_mul_emod_self_right,
      Int.emod_eq_of_lt (by omega) (by omega)]
  simp [ofLocalCount?, hdiv, hmod, Date.ofDayNumber?_dayNumber]

theorem localCount_of_ofLocalCount? {count : Int} {offset : Option Offset} {t : Moment}
    (h : ofLocalCount? count offset = some t) : t.localCount = count ∧ t.offset = offset := by
  simp only [ofLocalCount?, Option.map_eq_some_iff] at h
  obtain ⟨d, hd, rfl⟩ := h
  have hday := Date.dayNumber_of_ofDayNumber? hd
  refine ⟨?_, rfl⟩
  simp only [localCount, hday, toNat_emod_dayLength]
  rw [Int.mul_comm]
  exact Int.mul_ediv_add_emod ..

/-- Reading a moment in UTC keeps its instant. -/
theorem instant_of_toUtc? {s t : Moment} (h : s.toUtc? = some t) :
    t.instant = s.instant ∧ t.offset = some .utc := by
  simp only [toUtc?] at h
  split at h
  · rename_i h0
    cases h
    exact ⟨by rw [instant, instant, h0]; rfl, rfl⟩
  · obtain ⟨hc, ho⟩ := localCount_of_ofLocalCount? h
    refine ⟨?_, ho⟩
    rw [instant, hc, offsetMinutes, ho]
    simp [Offset.utc]

end Moment

end BillRun.Calendar
