import BillRun.Account.Run

/-! An account over time: its events, the invoices issued to it, and the clock.

`step` carries out one action and answers it. An action that fails leaves the state as it was. The
`n`-th action takes its ids from the `n`-th supply, so a run never meets an id of an earlier one
when the supplies share none. -/
namespace BillRun.Session

open Calendar

/-- The account as the actions so far have left it. -/
structure State where
  now : Moment
  /-- None until a list of events is given. -/
  events : Option (List Event)
  issued : List Invoice
  actions : Nat

/-- What may be done with an account. A position to repeat counts from either end of the list, one
to drop or to forget from its start. -/
inductive Action where
  | setNow (now : Moment)
  | events (events : Option (List Event))
  | addEvent (event : Event)
  | repeatEvent (position : Int)
  | dropEvent (position : Int)
  | issue (invoice : Invoice)
  | forget (position : Int)
  | effective
  | generate (request : RunRequest) (keep ignoreIssued : Bool)

/-- What an action tells that has not failed. -/
inductive Answer where
  | now (now : Moment)
  | count (n : Nat)
  | nothing
  | items (items : List Item)
  | invoice (invoice : Invoice)

/-- The list without the element at a position; nothing is dropped where there is none. -/
def dropAt (xs : List α) (position : Int) : List α :=
  if 0 ≤ position then xs.eraseIdx position.toNat else xs

/-- The action's effect and its answer. -/
def act (terms : Terms) (ids : Nat → Nat → Uuid) (s : State) :
    Action → Except Fault (State × Answer)
  | .setNow now => do
    let now ← now.toUtc
    return ({ s with now }, .now now)
  | .events none => .ok ({ s with events := none }, .nothing)
  | .events (some events) => .ok ({ s with events }, .count events.length)
  | .addEvent e =>
    let events := s.events.getD [] ++ [e]
    .ok ({ s with events }, .count events.length)
  | .repeatEvent position => do
    let events := s.events.getD []
    match Sequence.at? events position with
    | none => throw .position
    | some e => return ({ s with events := events ++ [e] }, .count (events.length + 1))
  | .dropEvent position =>
    let events := dropAt (s.events.getD []) position
    .ok ({ s with events }, .count events.length)
  | .issue invoice =>
    let issued := s.issued ++ [invoice]
    .ok ({ s with issued }, .count issued.length)
  | .forget position =>
    let issued := dropAt s.issued position
    .ok ({ s with issued }, .count issued.length)
  | .effective => .ok (s, .items (Settlement.surviving (s.issued.flatMap (·.items))))
  | .generate request keep ignoreIssued => do
    let issued := if ignoreIssued then [] else s.issued
    let occasion : Occasion := ⟨terms, s.now, ids s.actions⟩
    match ← occasion.run (s.events.getD []) issued request with
    | none => return (s, .nothing)
    | some v => return (if keep then { s with issued := s.issued ++ [v] } else s, .invoice v)

/-- One action. It counts also when it fails, so no two actions share a supply of ids. -/
def step (terms : Terms) (ids : Nat → Nat → Uuid) (s : State) (a : Action) :
    State × Except Fault Answer :=
  match act terms ids s a with
  | .ok (next, answer) => ({ next with actions := s.actions + 1 }, .ok answer)
  | .error fault => ({ s with actions := s.actions + 1 }, .error fault)

/-- The answers to actions in turn. -/
def run (terms : Terms) (ids : Nat → Nat → Uuid) (s : State) :
    List Action → List (Except Fault Answer)
  | [] => []
  | a :: actions =>
    let (next, answer) := step terms ids s a
    answer :: run terms ids next actions

end BillRun.Session
