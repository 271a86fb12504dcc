/-! Decimal digits, written and read.

`fixed` writes a number in a given count of digits, `natural` in as few as it takes; `readFixed`
and `valueOf` go back. Readers work on lists of characters and return what is left. -/
namespace BillRun.Text

def digitValue? (c : Char) : Option Nat :=
  if '0' ≤ c ∧ c ≤ '9' then some (c.toNat - '0'.toNat) else none

def isDigit (c : Char) : Bool := (digitValue? c).isSome

/-- The last digit of `n`. -/
def lastDigit (n : Nat) : Char := Nat.digitChar (n % 10)

/-- The last `width` digits of `n`. -/
def fixed : (width n : Nat) → List Char
  | 0, _ => []
  | width + 1, n => fixed width (n / 10) ++ [lastDigit n]

/-- The digits of `n`, the first of them not a zero unless `n` is. -/
def natural (n : Nat) : List Char :=
  if n < 10 then [lastDigit n] else natural (n / 10) ++ [lastDigit n]
termination_by n

/-- A whole number in digits, after a minus sign where it is negative. -/
def integer (n : Int) : List Char :=
  if n < 0 then '-' :: natural n.natAbs else natural n.natAbs

/-- The last `width` hexadecimal digits of `n`, in lower case. -/
def hexDigits : (width n : Nat) → List Char
  | 0, _ => []
  | width + 1, n => hexDigits width (n / 16) ++ [Nat.digitChar (n % 16)]

/-- The value of a hexadecimal digit of either case. -/
def hexValue? (c : Char) : Option Nat :=
  if '0' ≤ c ∧ c ≤ '9' then some (c.toNat - '0'.toNat)
  else if 'a' ≤ c ∧ c ≤ 'f' then some (c.toNat - 'a'.toNat + 10)
  else if 'A' ≤ c ∧ c ≤ 'F' then some (c.toNat - 'A'.toNat + 10)
  else none

/-- Reads exactly `width` hexadecimal digits, carrying on from `value`. -/
def readHexFrom (value : Nat) : (width : Nat) → List Char → Option (Nat × List Char)
  | 0, cs => some (value, cs)
  | width + 1, c :: cs =>
    match hexValue? c with
    | some d => readHexFrom (16 * value + d) width cs
    | none => none
  | _ + 1, [] => none

/-- The count of digits that `natural` writes. -/
def digitCount (n : Nat) : Nat :=
  if n < 10 then 1 else digitCount (n / 10) + 1
termination_by n

/-- Reads exactly `width` digits, carrying on from `value`. -/
def readFixedFrom (value : Nat) : (width : Nat) → List Char → Option (Nat × List Char)
  | 0, cs => some (value, cs)
  | width + 1, c :: cs =>
    match digitValue? c with
    | some d => readFixedFrom (10 * value + d) width cs
    | none => none
  | _ + 1, [] => none

/-- Reads exactly `width` digits. -/
def readFixed (width : Nat) (cs : List Char) : Option (Nat × List Char) := readFixedFrom 0 width cs

/-- How many digits a whole number in text may have. -/
def mostDigits : Nat := 4300

/-- A one followed by `n` zeros. -/
def powerOfTen (n : Nat) : Nat := Nat.pow 10 n

/-- The number that a list of digits stands for. -/
def valueOf (cs : List Char) : Nat := cs.foldl (fun v c => 10 * v + (digitValue? c).getD 0) 0

/-- The leading digits and the rest. -/
def spanDigits (cs : List Char) : List Char × List Char :=
  (cs.takeWhile isDigit, cs.dropWhile isDigit)

@[simp] theorem powerOfTen_zero : powerOfTen 0 = 1 := rfl

theorem powerOfTen_succ (n : Nat) : powerOfTen (n + 1) = 10 * powerOfTen n := Nat.mul_comm ..

theorem powerOfTen_pos (n : Nat) : 0 < powerOfTen n := by
  induction n with
  | zero => decide
  | succ n ih => rw [powerOfTen_succ]; omega

theorem digitValue?_lastDigit (n : Nat) : digitValue? (lastDigit n) = some (n % 10) := by
  have h : ∀ d < 10, digitValue? (Nat.digitChar d) = some d := by decide
  exact h _ (Nat.mod_lt n (by decide))

theorem isDigit_lastDigit (n : Nat) : isDigit (lastDigit n) = true := by
  simp [isDigit, digitValue?_lastDigit]

theorem length_fixed (width n : Nat) : (fixed width n).length = width := by
  induction width generalizing n with
  | zero => rfl
  | succ width ih => simp [fixed, ih]

theorem readFixedFrom_append (value width : Nat) (cs rest : List Char) (c : Char) (v d : Nat)
    (h : readFixedFrom value width cs = some (v, [])) (hc : digitValue? c = some d) :
    readFixedFrom value (width + 1) (cs ++ c :: rest) = some (10 * v + d, rest) := by
  induction width generalizing value cs with
  | zero =>
    simp only [readFixedFrom, Option.some.injEq, Prod.mk.injEq] at h
    obtain ⟨rfl, rfl⟩ := h
    simp [readFixedFrom, hc]
  | succ width ih =>
    cases cs with
    | nil => simp [readFixedFrom] at h
    | cons a cs =>
      rw [readFixedFrom] at h
      rw [List.cons_append, readFixedFrom]
      split at h
      · exact ih _ _ h
      · cases h

theorem readFixedFrom_fixed (value width n : Nat) (h : n < powerOfTen width) :
    readFixedFrom value width (fixed width n) = some (value * powerOfTen width + n, []) := by
  induction width generalizing n with
  | zero => simp at h; simp [fixed, readFixedFrom, h]
  | succ width ih =>
    have hq : n / 10 < powerOfTen width := by rw [powerOfTen_succ] at h; omega
    rw [fixed, readFixedFrom_append _ _ _ [] _ _ _ (ih _ hq) (digitValue?_lastDigit n)]
    have : 10 * (value * powerOfTen width + n / 10) + n % 10
        = value * powerOfTen (width + 1) + n := by
      rw [powerOfTen_succ, Nat.mul_left_comm]
      omega
    rw [this]

theorem readFixedFrom_rest {value width v : Nat} {cs r : List Char} (rest : List Char)
    (h : readFixedFrom value width cs = some (v, r)) :
    readFixedFrom value width (cs ++ rest) = some (v, r ++ rest) := by
  induction width generalizing value cs with
  | zero => simp [readFixedFrom] at h ⊢; exact ⟨h.1, by rw [h.2]⟩
  | succ width ih =>
    cases cs with
    | nil => simp [readFixedFrom] at h
    | cons a cs =>
      rw [readFixedFrom] at h
      rw [List.cons_append, readFixedFrom]
      split at h
      · exact ih h
      · cases h

/-- Reading back what `fixed` wrote, whatever follows it. -/
theorem readFixed_fixed {width n : Nat} (h : n < powerOfTen width) (rest : List Char) :
    readFixed width (fixed width n ++ rest) = some (n, rest) := by
  have := readFixedFrom_rest rest (readFixedFrom_fixed 0 width n h)
  simpa [readFixed] using this

theorem valueOf_append (cs : List Char) (c : Char) :
    valueOf (cs ++ [c]) = 10 * valueOf cs + (digitValue? c).getD 0 := by
  simp [valueOf]

theorem valueOf_natural (n : Nat) : valueOf (natural n) = n := by
  fun_induction natural n with
  | case1 n h => simp [valueOf, digitValue?_lastDigit]; omega
  | case2 n h ih => rw [valueOf_append, ih, digitValue?_lastDigit]; simp; omega

theorem all_isDigit_natural (n : Nat) : ∀ c ∈ natural n, isDigit c = true := by
  fun_induction natural n with
  | case1 n h => simp [isDigit_lastDigit]
  | case2 n h ih =>
    intro c hc
    rcases List.mem_append.1 hc with hc | hc
    · exact ih c hc
    · rw [List.mem_singleton.1 hc]; exact isDigit_lastDigit n

theorem length_natural (n : Nat) : (natural n).length = digitCount n := by
  fun_induction natural n with
  | case1 n h => rw [digitCount, if_pos h]; rfl
  | case2 n h ih => rw [digitCount, if_neg h, List.length_append, ih]; rfl

end BillRun.Text
