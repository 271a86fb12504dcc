import BillRun.Calendar.Month

/-! Dates, and the running count of days behind them.

`Date.dayNumber` counts days with the first day of year 1 as day 1; differences of calendar
dates are differences of this count. `Date.ofDayNumber?` goes back: it finds the month by binary
descent on `daysBefore`, so it needs nothing but the growth of that function. -/
namespace BillRun.Calendar

/-- A day that its month has. -/
structure Date where
  month : Month
  day : Nat
  one_le_day : 1 ≤ day
  day_le : day ≤ month.length
deriving DecidableEq

namespace Date

def year (d : Date) : Nat := d.month.year

/-- Days from the first day of year 1 up to this one, both counted. -/
def dayNumber (d : Date) : Nat := daysBefore d.month.index + d.day

/-- The given day of a month, or its last day when the month is shorter. -/
def clamped (m : Month) (day : Nat) (h : 1 ≤ day) : Date where
  month := m
  day := min day m.length
  one_le_day := by
    have : 28 ≤ m.length := le_lengthAt m.index
    omega
  day_le := Nat.min_le_right ..

/-- The date with the given fields, when there is one. -/
def of? (year number day : Nat) : Option Date :=
  match Month.of? year number with
  | none => none
  | some m => if h : 1 ≤ day ∧ day ≤ m.length then some ⟨m, day, h.1, h.2⟩ else none

/-- The last of the `1 <<< steps` months from `low` on that begins before day `n`, when the month
`low` does. -/
def monthOfDay (n : Nat) : (steps low : Nat) → Nat
  | 0, low => low
  | k + 1, low =>
    if daysBefore (low + 1 <<< k) < n then monthOfDay n k (low + 1 <<< k) else monthOfDay n k low

/-- The date of a day number, within the years 1 to 9999. -/
def ofDayNumber? (n : Int) : Option Date :=
  let index := monthOfDay n.toNat 17 12
  let day := n.toNat - daysBefore index
  if hm : 12 ≤ index ∧ index < 120000 then
    if hd : 1 ≤ day ∧ day ≤ lengthAt index then
      some ⟨⟨index, hm.1, hm.2⟩, day, hd.1, hd.2⟩
    else none
  else none

end Date

theorem daysBefore_mono {i j : Nat} (hi : 12 ≤ i) (hij : i ≤ j) : daysBefore i ≤ daysBefore j := by
  induction hij with
  | refl => exact Nat.le_refl _
  | @step k hk ih =>
    rw [daysBefore_succ k (Nat.le_trans hi hk)]
    exact Nat.le_trans ih (Nat.le_add_right ..)

namespace Date

theorem monthOfDay_eq {n index : Nat} (hb : daysBefore index < n)
    (ha : n ≤ daysBefore (index + 1)) :
    ∀ steps low, 12 ≤ low → low ≤ index → index < low + 1 <<< steps → monthOfDay n steps low = index
  | 0, low, _, h1, h2 => by
    rw [monthOfDay]
    omega
  | k + 1, low, h12, h1, h2 => by
    have hpow : 1 <<< (k + 1) = 1 <<< k + 1 <<< k := by rw [Nat.shiftLeft_succ, Nat.two_mul]
    rw [monthOfDay]
    split
    · rename_i hlt
      refine monthOfDay_eq hb ha k _ (by omega) ?_ (by omega)
      refine Decidable.byContradiction fun hgt => ?_
      have := daysBefore_mono (i := index + 1) (j := low + 1 <<< k) (by omega) (by omega)
      omega
    · rename_i hge
      refine monthOfDay_eq hb ha k _ h12 h1 ?_
      refine Decidable.byContradiction fun hgt => ?_
      have := daysBefore_mono (i := low + 1 <<< k) (j := index) (by omega) (by omega)
      omega

/-- The day count determines the date. -/
theorem ofDayNumber?_dayNumber (d : Date) : ofDayNumber? d.dayNumber = some d := by
  obtain ⟨⟨index, hlo, hhi⟩, day, h1, h2⟩ := d
  have hm : monthOfDay (daysBefore index + day) 17 12 = index := by
    refine monthOfDay_eq (by omega) ?_ 17 12 (Nat.le_refl _) hlo (by omega)
    rw [daysBefore_succ index hlo]
    exact Nat.add_le_add_left h2 _
  simp only [ofDayNumber?, dayNumber, Int.toNat_natCast, hm, Nat.add_sub_cancel_left]
  simp only [Month.length] at h2
  simp [hlo, hhi, h1, h2]

theorem dayNumber_of_ofDayNumber? {n : Int} {d : Date} (h : ofDayNumber? n = some d) :
    (d.dayNumber : Int) = n := by
  simp only [ofDayNumber?] at h
  split at h
  · split at h
    · rename_i hm hd
      cases h
      simp only [dayNumber]
      omega
    · cases h
  · cases h

end Date

end BillRun.Calendar
