import BillRun.Proofs.Shifting
import BillRun.Proofs.Writing
import BillRun.Service.Scalars

/-! What forms rely on in the single values they hold.

Forms meet identifiers, moments and amounts through the readers and writers of a `Scalars` only, and
rely on few laws of these (`Scalars.Lawful`): what is written is text and is read back; what is read
lies within what is read back; two texts that name one instant read as one moment; and neither lists
nor records are looked into. The readers and writers of the service keep these laws. -/
namespace BillRun

open Calendar Form

/-- Two texts that name one instant, each in an offset of its own or in none. -/
inductive SameInstant : Json → Json → Prop
  | named {s s' : String} {t t' : Moment} (hs : Moment.ofText? s = some t)
    (hs' : Moment.ofText? s' = some t') (h : t.instant = t'.instant) :
    SameInstant (.string s) (.string s')

/-- The check takes all lists alike, and all records. -/
structure Form.Scalar (check : Check α) : Prop where
  array : ∀ js js', check (.array js) = check (.array js')
  object : ∀ ms ms', check (.object ms) = check (.object ms')

namespace Service

open Scalars

/-- The laws of reading and writing single values. -/
class Scalars.Lawful [Scalars] : Prop where
  readUuid_writeUuid : ∀ u, readUuid (writeUuid u) = .value u
  readMoment_writeMoment : ∀ t : Moment, t.InUtc → readMoment (writeMoment t) = .value t
  readAmount_writeAmount : ∀ d : Decimal, d.writable = true → readAmount (writeAmount d) = .value d
  writeUuid_text : ∀ u, ∃ s : String, writeUuid u = .string s
  writeMoment_text : ∀ t, ∃ s : String, writeMoment t = .string s
  writeAmount_text : ∀ d, ∃ s : String, writeAmount d = .string s
  inUtc_of_readMoment : ∀ {v : Json} {t : Moment}, readMoment v = .value t → t.InUtc
  writable_of_readAmount : ∀ {v : Json} {d : Decimal}, readAmount v = .value d → d.writable = true
  readMoment_sameInstant : ∀ {v v' : Json}, SameInstant v v' → readMoment v = readMoment v'
  readUuid_scalar : Scalar readUuid
  readMoment_scalar : Scalar readMoment
  readAmount_scalar : Scalar readAmount

end Service

/-! ### The readers and writers of the service -/

namespace Form

variable {v : Json} {t : Moment} {d : Decimal}

theorem inUtc_of_momentOfCount {count : Int} (h : momentOfCount count = .value t) : t.InUtc := by
  unfold momentOfCount at h
  split at h
  · rename_i hcount
    cases h
    exact (Moment.localCount_of_ofLocalCount? hcount).2
  · cases h

theorem inUtc_of_momentOfText {cs : List Char} (h : momentOfText cs = .value t) : t.InUtc := by
  unfold momentOfText at h
  split at h
  · unfold momentOfStamp inUtc Moment.toUtc at h
    split at h
    · rename_i read _
      cases hutc : read.toUtc? with
      | none =>
        rw [hutc] at h
        cases h
      | some u =>
        rw [hutc] at h
        cases h
        exact (Moment.instant_of_toUtc? hutc).2
    · cases h
  · split at h
    · exact inUtc_of_momentOfCount h
    · cases h

/-- However a moment is given, it is read in UTC. -/
theorem inUtc_of_moment (h : moment v = .value t) : t.InUtc := by
  have hnumber {count : Option Int} (h : momentOfNumber count = .value t) : t.InUtc := by
    cases count with
    | none => cases h
    | some count => exact inUtc_of_momentOfCount h
  unfold moment at h
  split at h
  · exact inUtc_of_momentOfText h
  · cases h
  · exact hnumber h
  · exact hnumber h
  · cases h

theorem writable_of_amountOfText {s : String} (h : amountOfText s = .ok d) :
    d.writable = true := by
  unfold amountOfText at h
  dsimp only at h
  split at h
  · cases h
  · split at h
    · rename_i hread
      cases h
      unfold Decimal.ofChars? at hread
      simp only [Option.bind_eq_bind, Option.bind_eq_some_iff] at hread
      obtain ⟨_, -, _, -, hread⟩ := hread
      split at hread
      · cases hread
        assumption
      · cases hread
    · cases h

/-- However an amount is given, it lies within what can be written. -/
theorem writable_of_amount (h : amount v = .value d) : d.writable = true := by
  have hwritable {e : Decimal} (h : writableAmount e = .value d) : d.writable = true := by
    unfold writableAmount at h
    split at h
    · cases h
      assumption
    · cases h
  unfold amount at h
  split at h
  · exact hwritable h
  · exact hwritable h
  · cases h
  · rename_i s
    cases htext : amountOfText s with
    | ok e =>
      rw [htext] at h
      cases h
      exact writable_of_amountOfText htext
    | error =>
      rw [htext] at h
      cases h
  · cases h
  · cases h

end Form

theorem Calendar.Moment.toUtc?_eq (t : Moment) :
    t.toUtc? = ofLocalCount? t.instant (some .utc) := by
  unfold toUtc?
  split
  · rename_i hzero
    rw [instant, hzero, Int.zero_mul, Int.sub_zero, ofLocalCount?_localCount]
  · rfl

namespace Form

variable {v v' : Json}

theorem moment_of_ofText? {s : String} {t : Moment} (h : Moment.ofText? s = some t) :
    moment (.string s) = inUtc t := by
  obtain ⟨stamp, hstamp, ht⟩ := Option.bind_eq_some_iff.mp h
  simp only [moment, momentOfText, hstamp, momentOfStamp, ht]

/-- A moment is read by its instant. -/
theorem moment_sameInstant (h : SameInstant v v') : moment v = moment v' := by
  cases h with
  | named hs hs' h =>
    rw [moment_of_ofText? hs, moment_of_ofText? hs', inUtc, inUtc, Moment.toUtc, Moment.toUtc,
      Moment.toUtc?_eq, Moment.toUtc?_eq, h]

end Form

namespace Service

theorem identifier_ofUuid (u : Uuid) : identifier (ofUuid u) = .value u := by
  simp [identifier, ofUuid, Uuid.ofText?_text]

theorem moment_ofMoment {t : Moment} (h : t.InUtc) : moment (ofMoment t) = .value t :=
  Moment.moment_zoned h

theorem amount_ofDecimal {d : Decimal} (h : d.writable = true) :
    amount (ofDecimal d) = .value d := by
  simp [amount, ofDecimal, Decimal.amountOfText_text h, Checked.ofExcept]

instance Scalars.lawful_standard : Scalars.Lawful where
  readUuid_writeUuid := identifier_ofUuid
  readMoment_writeMoment _ := moment_ofMoment
  readAmount_writeAmount _ := amount_ofDecimal
  writeUuid_text u := ⟨u.text, rfl⟩
  writeMoment_text t := ⟨t.zoned, rfl⟩
  writeAmount_text d := ⟨d.text, rfl⟩
  inUtc_of_readMoment := inUtc_of_moment
  writable_of_readAmount := writable_of_amount
  readMoment_sameInstant := moment_sameInstant
  readUuid_scalar := ⟨fun _ _ => rfl, fun _ _ => rfl⟩
  readMoment_scalar := ⟨fun _ _ => rfl, fun _ _ => rfl⟩
  readAmount_scalar := ⟨fun _ _ => rfl, fun _ _ => rfl⟩

end Service

end BillRun
