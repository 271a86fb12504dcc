import BillRun.Form.Scalar
import BillRun.Proofs.Shifting
import Mathlib.Algebra.Group.Nat.Defs

/-! Values written and read again.

Identifiers, moments in UTC and amounts within range come back as they were written, digit for
digit: an amount keeps its trailing zeros and its exponent, also where it is written with a power of
ten. The readers take more than the writers write, so each proof follows what is written through the
cases of the reader. -/
namespace BillRun

open Calendar Text

/-! ### Identifiers -/

namespace Text

theorem hexValue?_digitChar : ∀ d < 16, hexValue? (Nat.digitChar d) = some d := by decide

theorem readHexFrom_add (value m k : Nat) (cs : List Char) :
    readHexFrom value (m + k) cs =
      (readHexFrom value m cs).bind fun (v, cs) => readHexFrom v k cs := by
  induction m generalizing value cs with
  | zero => simp [readHexFrom]
  | succ m ih =>
    rw [Nat.add_right_comm]
    cases cs with
    | nil => simp [readHexFrom]
    | cons c cs =>
      simp only [readHexFrom]
      cases hexValue? c with
      | none => rfl
      | some d => exact ih _ _

theorem readHexFrom_hexDigits (value width n : Nat) (rest : List Char) :
    readHexFrom value width (hexDigits width n ++ rest) =
      some (value * 16 ^ width + n % 16 ^ width, rest) := by
  induction width generalizing n rest with
  | zero => simp [hexDigits, readHexFrom, Nat.mod_one]
  | succ width ih =>
    have hlast : n % 16 ^ (width + 1) = 16 * (n / 16 % 16 ^ width) + n % 16 := by
      rw [Nat.pow_succ', Nat.mod_mul]
      omega
    rw [hexDigits, List.append_assoc, List.singleton_append, readHexFrom_add, ih]
    simp only [Option.bind_some, readHexFrom, hexValue?_digitChar _ (Nat.mod_lt n (by decide)),
      hlast]
    rw [Nat.pow_succ', Nat.mul_left_comm]
    congr 2
    omega

/-- Reading on, after the digits above those written. -/
theorem readHexFrom_shiftRight (n low width : Nat) (rest : List Char) :
    readHexFrom (n >>> (low + 4 * width)) width (hexDigits width (n >>> low) ++ rest) =
      some (n >>> low, rest) := by
  have hpow : 2 ^ (4 * width) = 16 ^ width := by rw [Nat.pow_mul]
  rw [readHexFrom_hexDigits, Nat.shiftRight_add, Nat.shiftRight_eq_div_pow _ (4 * width), hpow]
  rw [Nat.mul_comm, Nat.div_add_mod]

theorem length_hexDigits (width n : Nat) : (hexDigits width n).length = width := by
  induction width generalizing n with
  | zero => rfl
  | succ width ih => simp [hexDigits, ih]

theorem isSome_of_mem_hexDigits {width n : Nat} {c : Char} (h : c ∈ hexDigits width n) :
    (hexValue? c).isSome = true := by
  induction width generalizing n with
  | zero => cases h
  | succ width ih =>
    rcases List.mem_append.mp h with h | h
    · exact ih h
    · rw [List.mem_singleton.mp h, hexValue?_digitChar _ (Nat.mod_lt n (by decide))]
      rfl

end Text

namespace Uuid

theorem ofGrouped?_chars (u : Uuid) : ofGrouped? u.chars = some u := by
  have hfirst : u.value.toNat >>> 128 = 0 := by
    rw [Nat.shiftRight_eq_div_pow]
    exact Nat.div_eq_of_lt u.value.isLt
  -- each group is read on from those before it
  have h₁ := readHexFrom_shiftRight u.value.toNat 96 8
  have h₂ := readHexFrom_shiftRight u.value.toNat 80 4
  have h₃ := readHexFrom_shiftRight u.value.toNat 64 4
  have h₄ := readHexFrom_shiftRight u.value.toNat 48 4
  have h₅ := readHexFrom_shiftRight u.value.toNat 0 12 []
  simp only [Nat.reduceMul, Nat.reduceAdd, hfirst, List.append_nil, Nat.shiftRight_zero]
    at h₁ h₂ h₃ h₄ h₅
  simp [ofGrouped?, readGroups, chars, h₁, h₂, h₃, h₄, h₅]

/-- **An identifier is read as it was written.** -/
theorem ofText?_text (u : Uuid) : ofText? u.text = some u := by
  have hhead {c : Char} {cs : List Char} (h : u.chars = c :: cs) : (hexValue? c).isSome = true := by
    have hmem : c ∈ (hexDigits 8 (u.value.toNat >>> 96)) := by
      have hc : u.chars.head? = (hexDigits 8 (u.value.toNat >>> 96)).head? := by
        simp [chars, hexDigits]
      rw [h, List.head?_cons] at hc
      exact List.mem_of_mem_head? hc.symm
    exact isSome_of_mem_hexDigits hmem
  have hlength : u.chars.length ≠ 32 := by simp [chars, length_hexDigits]
  unfold ofText? text
  rw [String.toList_ofList]
  unfold ofChars?
  split
  · rename_i h
    exact absurd (hhead h) (by decide)
  · rename_i h
    exact absurd (hhead h) (by decide)
  · rw [if_neg hlength, ofGrouped?_chars]

end Uuid

/-! ### Digits -/

namespace Text

theorem valueOf_fixed (width n : Nat) : valueOf (fixed width n) = n % powerOfTen width := by
  induction width generalizing n with
  | zero => simp [fixed, valueOf, Nat.mod_one]
  | succ width ih =>
    rw [fixed, valueOf_append, ih, digitValue?_lastDigit, powerOfTen_succ, Nat.mod_mul]
    simp only [Option.getD_some]
    omega

theorem isDigit_of_mem_fixed {width n : Nat} {c : Char} (h : c ∈ fixed width n) :
    isDigit c = true := by
  induction width generalizing n with
  | zero => cases h
  | succ width ih =>
    rcases List.mem_append.mp h with h | h
    · exact ih h
    · rw [List.mem_singleton.mp h]
      exact isDigit_lastDigit n

theorem spanDigits_append {digits rest : List Char} (hdigits : ∀ c ∈ digits, isDigit c = true)
    (hrest : ∀ c, rest.head? = some c → isDigit c = false) :
    spanDigits (digits ++ rest) = (digits, rest) := by
  have htake : rest.takeWhile isDigit = [] := by
    cases rest with
    | nil => rfl
    | cons c rest => rw [List.takeWhile_cons_of_neg (by simpa using hrest c rfl)]
  have hdrop : rest.dropWhile isDigit = rest := by
    cases rest with
    | nil => rfl
    | cons c rest => rw [List.dropWhile_cons_of_neg (by simpa using hrest c rfl)]
  rw [spanDigits, List.takeWhile_append_of_pos hdigits, List.dropWhile_append_of_pos hdigits, htake,
    hdrop, List.append_nil]

end Text

/-! ### Moments -/

namespace Calendar

/-- Moments that the service deals in. -/
def Moment.InUtc (t : Moment) : Prop := t.offset = some .utc

theorem Month.year_lt (m : Month) : m.year < 10000 := by
  have := m.index_lt
  unfold year
  omega

theorem Date.of?_year (d : Date) : Date.of? d.year d.month.number d.day = some d := by
  have hlo := d.month.first_le
  have hhi := d.month.index_lt
  have hmonth : Month.of? d.year d.month.number = some d.month := by
    unfold Month.of? Date.year Month.year Month.number
    rw [dif_pos (by omega)]
    congr 1
    apply Month.eq_of_index
    dsimp only
    omega
  unfold Date.of?
  rw [hmonth]
  simp [d.one_le_day, d.day_le]

theorem readFixed_two {n : Nat} (h : n < 100) (rest : List Char) :
    readFixed 2 (fixed 2 n ++ rest) = some (n, rest) := readFixed_fixed h rest

namespace Stamp

theorem readDate_dateText (d : Date) (rest : List Char) :
    readDate (Moment.dateText d ++ rest) = some ((d.year, d.month.number, d.day), rest) := by
  have hlength := lengthAt_le d.month.index
  have hday : d.day ≤ lengthAt d.month.index := d.day_le
  have hnumber : 1 ≤ d.month.number ∧ d.month.number ≤ 12 := by
    unfold Month.number
    omega
  have hindex : 12 * d.year + (d.month.number - 1) = d.month.index := by
    unfold Date.year Month.year Month.number
    omega
  have hvalid : 1 ≤ d.month.number ∧ d.month.number ≤ 12 ∧ 1 ≤ d.day ∧
      d.day ≤ lengthAt (12 * d.year + (d.month.number - 1)) := by
    rw [hindex]
    exact ⟨hnumber.1, hnumber.2, d.one_le_day, hday⟩
  have hyear (rest : List Char) : readFixed 4 (fixed 4 d.year ++ rest) = some (d.year, rest) :=
    readFixed_fixed d.month.year_lt rest
  have hmonth := readFixed_two (n := d.month.number) (by omega)
  have hdate := readFixed_two (n := d.day) (by omega)
  simp only [readDate, Moment.dateText, List.append_assoc, List.cons_append, hyear, hmonth, hdate,
    Option.bind_eq_bind, Option.bind_some, if_pos hvalid]

theorem fraction_fixed {n : Nat} (h : n < 1000000) : fraction (fixed 6 n) = n := by
  have htake : (fixed 6 n ++ List.replicate 6 '0').take 6 = fixed 6 n :=
    List.take_left' (length_fixed 6 n)
  rw [fraction, htake, valueOf_fixed]
  exact Nat.mod_eq_of_lt h

/-- Seconds are written with six digits of fraction or with none. -/
theorem readSeconds_seconds {s n : Nat} (hs : s < 60) (hn : n < 1000000) :
    readSeconds (':' :: (fixed 2 s ++ ((if n = 0 then [] else '.' :: fixed 6 n) ++ ['Z']))) =
      some (s * 1000000 + n, ['Z']) := by
  have hread := readFixed_two (n := s) (by omega)
  have hne : fixed 6 n ≠ [] := List.ne_nil_of_length_eq_add_one (length_fixed 6 n)
  have hspan : spanDigits (fixed 6 n ++ ['Z']) = (fixed 6 n, ['Z']) :=
    spanDigits_append (fun _ => isDigit_of_mem_fixed) (by rintro _ ⟨⟩; decide)
  simp only [readSeconds, hread, Option.bind_eq_bind, Option.bind_some,
    if_neg (show ¬59 < s by omega)]
  by_cases hzero : n = 0
  · simp [hzero]
  · simp only [if_neg hzero, List.cons_append, hspan, fraction_fixed hn]

theorem readClock_clockText {clock : Nat} (h : clock < dayLength) :
    readClock (Moment.clockText clock ++ ['Z']) = some (clock, ['Z']) := by
  unfold dayLength at h
  have hhour := readFixed_two (n := clock / 1000000 / 3600) (by omega)
  have hminute := readFixed_two (n := clock / 1000000 / 60 % 60) (by omega)
  have hseconds := readSeconds_seconds (s := clock / 1000000 % 60) (n := clock % 1000000)
    (by omega) (by omega)
  unfold readClock Moment.clockText
  simp only [List.append_assoc, List.cons_append, hhour, hminute, hseconds, Option.bind_eq_bind,
    Option.bind_some]
  rw [if_neg (by omega), minuteLength]
  congr 2
  omega

/-- What is written of a moment in UTC is stamped with its fields. -/
theorem read?_zonedChars {t : Moment} (h : t.InUtc) : read? t.zonedChars =
    some ⟨t.date.year, t.date.month.number, t.date.day, t.clock, t.clock_lt, some .utc⟩ := by
  have hchars : t.zonedChars =
      Moment.dateText t.date ++ 'T' :: (Moment.clockText t.clock ++ ['Z']) := by
    unfold Moment.zonedChars
    rw [if_pos (show t.offset = some .utc from h), List.append_assoc, List.cons_append]
  have hzone : readZone ['Z'] = some (some .utc) := rfl
  rw [hchars]
  simp [read?, readDate_dateText, readClock_clockText t.clock_lt, hzone, t.clock_lt]

end Stamp

/-- **A moment in UTC is read as it was written.** -/
theorem Moment.moment_zoned {t : Moment} (h : t.InUtc) :
    Form.moment (.string (.text t.zoned)) = .value t := by
  have hself : (⟨t.date, t.clock, t.clock_lt, some .utc⟩ : Moment) = t := by rw [← h]
  have hutc : t.toUtc? = some t := by
    have hminutes : t.offsetMinutes = 0 := by
      rw [offsetMinutes, h]
      rfl
    rw [toUtc?, if_pos hminutes]
    exact congrArg some hself
  have hstamp : (⟨t.date.year, t.date.month.number, t.date.day, t.clock, t.clock_lt, some .utc⟩ :
      Stamp).moment? = some t := by
    simp only [Stamp.moment?, Date.of?_year, Option.map_some, hself]
  simp only [Form.moment, Form.momentOfText, zoned, String.toList_ofList, Stamp.read?_zonedChars h,
    Form.momentOfStamp, hstamp, Form.inUtc, toUtc, hutc]

end Calendar

/-! ### Amounts -/

namespace Text

theorem natural_ne_nil (n : Nat) : natural n ≠ [] := by
  unfold natural
  split <;> simp

theorem dropWhile_eq_self {p : Char → Bool} {cs : List Char} (h : ∀ c ∈ cs, p c = false) :
    cs.dropWhile p = cs := by
  cases cs with
  | nil => rfl
  | cons c cs => exact List.dropWhile_cons_of_neg (by simp [h c List.mem_cons_self])

theorem stripBlanks_eq_self {cs : List Char} (h : ∀ c ∈ cs, isBlank c = false) :
    stripBlanks cs = cs := by
  unfold stripBlanks dropEnds
  rw [dropWhile_eq_self h, dropWhile_eq_self fun c hc => h c (List.mem_reverse.mp hc),
    List.reverse_reverse]

theorem plainDigits_eq_self {cs : List Char} (h : ∀ c ∈ cs, plainDigits [c] = [c]) :
    plainDigits cs = cs := by
  induction cs with
  | nil => rfl
  | cons c cs ih =>
    have happend : plainDigits (c :: cs) = plainDigits [c] ++ plainDigits cs := rfl
    rw [happend, h c List.mem_cons_self, ih fun c hc => h c (List.mem_cons_of_mem _ hc),
      List.singleton_append]

end Text

namespace Decimal

/-- The characters that amounts are written in. -/
def alphabet : List Char := "0123456789.E+-".toList

theorem of_all_alphabet {p : Char → Prop} [DecidablePred p]
    (h : (alphabet.all fun c => decide (p c)) = true) : ∀ c ∈ alphabet, p c := by
  simpa only [List.all_eq_true, decide_eq_true_eq] using h

theorem mem_alphabet_of_natural {n : Nat} {c : Char} (h : c ∈ natural n) : c ∈ alphabet := by
  have hdigit : ∀ d < 10, Nat.digitChar d ∈ alphabet := by decide
  fun_induction natural n with
  | case1 n hn =>
    rw [List.mem_singleton.mp h]
    exact hdigit _ (Nat.mod_lt n (by decide))
  | case2 n hn ih =>
    rcases List.mem_append.mp h with h | h
    · exact ih h
    · rw [List.mem_singleton.mp h]
      exact hdigit _ (Nat.mod_lt n (by decide))

theorem mem_pointed {digits : List Char} {places : Nat} {c : Char} (h : c ∈ pointed digits places) :
    c ∈ digits ∨ c = '.' ∨ c = '0' := by
  unfold pointed zeros at h
  split at h
  · exact .inl h
  · split at h
    · simp only [List.mem_append, List.mem_cons, List.mem_replicate] at h
      tauto
    · rcases List.mem_append.mp h with h | h
      · exact .inl (List.mem_of_mem_take h)
      · rcases List.mem_cons.mp h with h | h
        · exact .inr (.inl h)
        · exact .inl (List.mem_of_mem_drop h)

theorem mem_alphabet_of_chars {d : Decimal} {c : Char} (h : c ∈ d.chars) : c ∈ alphabet := by
  have hpointed {places : Nat} (h : c ∈ pointed (natural d.coefficient) places) :
      c ∈ alphabet := by
    rcases mem_pointed h with h | rfl | rfl
    · exact mem_alphabet_of_natural h
    · decide
    · decide
  unfold chars at h
  rcases List.mem_append.mp h with h | h
  · split at h
    · rw [List.mem_singleton.mp h]
      decide
    · cases h
  · split at h
    · exact hpointed h
    · rcases List.mem_append.mp h with h | h
      · exact hpointed h
      · rcases List.mem_cons.mp h with rfl | h
        · decide
        · rcases List.mem_cons.mp h with h | h
          · split at h <;> rw [h] <;> decide
          · exact mem_alphabet_of_natural h

/-- Nothing in what is written is changed before it is read. -/
theorem plain_of_mem_alphabet : ∀ c ∈ alphabet,
    isBlank c = false ∧ c ≠ '_' ∧ plainDigits [c] = [c] :=
  of_all_alphabet (by decide +kernel)

theorem valueOf_zeros_append (n : Nat) (digits : List Char) :
    valueOf (zeros n ++ digits) = valueOf digits := by
  induction n with
  | zero => rfl
  | succ n ih =>
    have hzero : valueOf ('0' :: (zeros n ++ digits)) = valueOf (zeros n ++ digits) := rfl
    exact hzero.trans ih

/-- The digits on both sides of the point. -/
theorem readDigits_pointed {digits rest : List Char} (places : Nat) (hne : digits ≠ [])
    (hdigits : ∀ c ∈ digits, isDigit c = true)
    (hrest : ∀ c, rest.head? = some c → isDigit c = false ∧ c ≠ '.') :
    ∃ whole fraction, readDigits (pointed digits places ++ rest) = some ((whole, fraction), rest) ∧
      valueOf (whole ++ fraction) = valueOf digits ∧ fraction.length = places := by
  have hend : ∀ c, rest.head? = some c → isDigit c = false := fun c hc => (hrest c hc).1
  have hparts (whole fraction : List Char) (hwhole : ∀ c ∈ whole, isDigit c = true)
      (hfraction : ∀ c ∈ fraction, isDigit c = true) (hne : whole ≠ []) :
      readDigits (whole ++ '.' :: (fraction ++ rest)) = some ((whole, fraction), rest) := by
    have hfirst : spanDigits (whole ++ '.' :: (fraction ++ rest)) =
        (whole, '.' :: (fraction ++ rest)) := spanDigits_append hwhole (by simp; decide)
    simp [readDigits, hfirst, spanDigits_append hfraction hend, hne]
  unfold pointed
  split
  · rename_i hzero
    have hspan := spanDigits_append hdigits hend
    have hpoint : ∀ cs, rest ≠ '.' :: cs := by
      rintro cs rfl
      exact (hrest '.' rfl).2 rfl
    refine ⟨digits, [], ?_, by simp, by simp [hzero]⟩
    unfold readDigits
    simp [hspan, hne]
  · split
    · rename_i hlong
      refine ⟨['0'], zeros (places - digits.length) ++ digits, ?_,
        valueOf_zeros_append (_ + 1) digits, by simp [zeros]; omega⟩
      have hfraction : ∀ c ∈ zeros (places - digits.length) ++ digits, isDigit c = true := by
        intro c hc
        rcases List.mem_append.mp hc with hc | hc
        · rw [(List.mem_replicate.mp hc).2]
          decide
        · exact hdigits c hc
      have hzero : ∀ c ∈ ['0'], isDigit c = true := by
        intro c hc
        rw [List.mem_singleton.mp hc]
        decide
      simpa using hparts ['0'] _ hzero hfraction (by decide)
    · have htake : digits.take (digits.length - places) ≠ [] :=
        List.ne_nil_of_length_pos (by rw [List.length_take]; omega)
      have hread := hparts (digits.take (digits.length - places))
        (digits.drop (digits.length - places)) (fun c hc => hdigits c (List.mem_of_mem_take hc))
        (fun c hc => hdigits c (List.mem_of_mem_drop hc)) htake
      refine ⟨_, _, by simpa using hread, by rw [List.take_append_drop], by simp; omega⟩

theorem readExponent_signed (n : Int) : readExponent ('E' :: signed n) = some n := by
  have hspan : spanDigits (natural n.natAbs ++ []) = (natural n.natAbs, []) :=
    spanDigits_append (all_isDigit_natural n.natAbs) (by simp)
  have hne := natural_ne_nil n.natAbs
  rw [List.append_nil] at hspan
  unfold readExponent signed
  by_cases hn : n < 0
  · simp only [hn, if_true, readSign, hspan, valueOf_natural, or_true]
    congr 1
    omega
  · simp only [hn, if_false, readSign, hspan, valueOf_natural, or_true, if_true, Bool.false_eq_true]
    congr 1
    omega

theorem readSign_of_digit {c : Char} (h : isDigit c = true) (cs : List Char) :
    readSign (c :: cs) = (false, c :: cs) := by
  unfold readSign
  split
  · rename_i heq
    cases heq
    exact absurd h (by decide)
  · rename_i heq
    cases heq
    exact absurd h (by decide)
  · rfl

/-- Digits come first, with a point among them or not. -/
theorem exists_pointed_cons {digits : List Char} (places : Nat) (hne : digits ≠ [])
    (hdigits : ∀ c ∈ digits, isDigit c = true) :
    ∃ c cs, pointed digits places = c :: cs ∧ isDigit c = true := by
  obtain ⟨c, cs, rfl⟩ := List.exists_cons_of_ne_nil hne
  unfold pointed
  split
  · exact ⟨c, cs, rfl, hdigits c List.mem_cons_self⟩
  · split
    · exact ⟨'0', _, rfl, by decide⟩
    · obtain ⟨n, hn⟩ : ∃ n, (c :: cs).length - places = n + 1 :=
        Nat.exists_eq_succ_of_ne_zero (by omega)
      rw [hn]
      exact ⟨c, _, rfl, hdigits c List.mem_cons_self⟩

/-- **An amount is read as it was written**: sign, digits and exponent. -/
theorem ofChars?_chars {d : Decimal} (h : d.writable = true) : ofChars? d.chars = some d := by
  have hne := natural_ne_nil d.coefficient
  have hdigits := all_isDigit_natural d.coefficient
  have hlength : (natural d.coefficient).length = d.digits := length_natural d.coefficient
  -- digits with so many of them after the point, and a power of ten that makes up for it
  have hread {places : Nat} {rest : List Char} {power : Int}
      (hrest : ∀ c, rest.head? = some c → isDigit c = false ∧ c ≠ '.')
      (hpower : readExponent rest = some power) (hexponent : power - places = d.exponent) :
      ofChars? ((if d.negative then ['-'] else []) ++
        (pointed (natural d.coefficient) places ++ rest)) = some d := by
    obtain ⟨whole, fraction, hparts, hvalue, hplaces⟩ :=
      readDigits_pointed places hne hdigits hrest
    have hsign : readSign ((if d.negative then ['-'] else []) ++
        (pointed (natural d.coefficient) places ++ rest)) =
          (d.negative, pointed (natural d.coefficient) places ++ rest) := by
      cases d.negative with
      | true => rfl
      | false =>
        obtain ⟨c, cs, hcons, hc⟩ := exists_pointed_cons places hne hdigits
        simp only [Bool.false_eq_true, if_false, List.nil_append, hcons, List.cons_append]
        exact readSign_of_digit hc _
    have hself : (⟨d.negative, valueOf (whole ++ fraction), power - fraction.length⟩ : Decimal) =
        d := by rw [hvalue, valueOf_natural, hplaces, hexponent]
    simp [ofChars?, hsign, hparts, hpower, hself, h]
  unfold chars
  dsimp only
  by_cases hplain : d.exponent ≤ 0 ∧ -6 ≤ d.adjusted
  · have hplaces : (0 : Int) - d.exponent.natAbs = d.exponent := by omega
    have hshort := hread (by simp) (rfl : readExponent [] = some 0) hplaces
    rw [List.append_nil] at hshort
    rwa [if_pos hplain]
  · have hpos : 0 < d.digits := hlength ▸ List.length_pos_of_ne_nil hne
    have hplaces : d.adjusted - ((natural d.coefficient).length - 1 : Nat) = d.exponent := by
      rw [hlength, adjusted]
      omega
    rw [if_neg hplain]
    exact hread (by simp; decide) (readExponent_signed d.adjusted) hplaces

theorem namesNoNumber_eq_false {cs : List Char} (h : ∀ c ∈ cs, c ∈ alphabet) :
    Form.namesNoNumber cs = false := by
  have hlower : ∀ c ∈ alphabet, c.toLower ≠ 'i' ∧ c.toLower ≠ 'n' ∧ c.toLower ≠ 's' :=
    of_all_alphabet (by decide +kernel)
  have hsign : ∀ c ∈ (readSign cs).2, c ∈ alphabet := by
    intro c hc
    unfold readSign at hc
    split at hc
    · exact h c (List.mem_cons_of_mem _ hc)
    · exact h c (List.mem_cons_of_mem _ hc)
    · exact h c hc
  unfold Form.namesNoNumber
  cases hrest : (readSign cs).2 with
  | nil => decide
  | cons c rest =>
    obtain ⟨hi, hn, hs⟩ := hlower c (hsign c (by rw [hrest]; exact List.mem_cons_self))
    simp [hi, Ne.symm hn, Ne.symm hs]

theorem amountOfText_text {d : Decimal} (h : d.writable = true) :
    Form.amountOfText d.text = .ok d := by
  have hchars : ∀ c ∈ d.chars, c ∈ alphabet := fun c => mem_alphabet_of_chars
  have hplain : plainDigits ((stripBlanks d.chars).filter (· ≠ '_')) = d.chars := by
    rw [stripBlanks_eq_self fun c hc => (plain_of_mem_alphabet c (hchars c hc)).1,
      List.filter_eq_self.mpr fun c hc => by simp [(plain_of_mem_alphabet c (hchars c hc)).2.1]]
    exact plainDigits_eq_self fun c hc => (plain_of_mem_alphabet c (hchars c hc)).2.2
  unfold Form.amountOfText text
  rw [String.toList_ofList, hplain]
  dsimp only
  rw [namesNoNumber_eq_false hchars, ofChars?_chars h]
  rfl

end Decimal

end BillRun
