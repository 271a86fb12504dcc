/-! Lists of names with values, read as tables.

A name that comes twice keeps its first place and takes its last value. -/
namespace BillRun.Assoc

variable {α β : Type} [DecidableEq α]

/-- The value of the first entry of a name. -/
def get? (name : α) : List (α × β) → Option β
  | [] => none
  | (n, value) :: rest => if n = name then some value else get? name rest

/-- The table with a value under a name: in the place of its first entry, or else at the end. -/
def put (name : α) (value : β) : List (α × β) → List (α × β)
  | [] => [(name, value)]
  | (n, v) :: rest => if n = name then (name, value) :: rest else (n, v) :: put name value rest

/-- The table of a list in which names may repeat. -/
def ofList (entries : List (α × β)) : List (α × β) :=
  entries.foldl (fun table (name, value) => put name value table) []

theorem get?_put (name other : α) (value : β) (table : List (α × β)) :
    get? other (put name value table) = if name = other then some value else get? other table := by
  induction table with
  | nil => simp [put, get?]
  | cons entry rest ih =>
    obtain ⟨n, v⟩ := entry
    by_cases hn : n = name
    · subst hn
      by_cases ho : n = other <;> simp [put, get?, ho]
    · by_cases ho : n = other
      · subst ho
        simp [put, get?, hn, Ne.symm hn]
      · simp [put, get?, hn, ho, ih]

theorem get?_append {name : α} {table more : List (α × β)} (h : ∀ entry ∈ more, entry.1 ≠ name) :
    get? name (table ++ more) = get? name table := by
  induction table with
  | nil =>
    induction more with
    | nil => rfl
    | cons entry more ih =>
      rw [List.forall_mem_cons] at h
      exact (if_neg h.1).trans (ih h.2)
  | cons entry table ih => rw [List.cons_append, get?, get?, ih]

end BillRun.Assoc
