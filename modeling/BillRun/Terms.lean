import BillRun.Amount.Arithmetic

/-! The terms a bill run works under: how amounts are rounded, and how far ahead it may look. -/
namespace BillRun

/-- A rounding that is not known is an error only once an amount has to be rounded. -/
structure Terms where
  rounding : Option Rounding
  decimals : Int
  horizon : Int
deriving DecidableEq, Repr

namespace Terms

/-- Halves away from zero, two decimals, three years ahead. -/
def standard : Terms := ⟨some .halfUp, 2, 36⟩

/-- The smallest amount that differs from zero. -/
def quantum (t : Terms) : Except Fault Decimal := Decimal.unitOf t.decimals

/-- The price of a number of cycles, rounded to the quantum. -/
def charge (t : Terms) (cycles rate : Decimal) : Except Fault Decimal := do
  let exact ← cycles.mul rate
  let quantum ← t.quantum
  match t.rounding with
  | none => throw .unknownRounding
  | some mode => exact.quantize mode quantum.exponent

end Terms

end BillRun
