import BillRun.Plan.Event
import BillRun.Sequence

/-! An account's events in order of time.

A timeline may hold the events of several subscriptions, interleaved; the successor of an event is
the next one of its own subscription. Events can only be put in order when all or none of them
carry an offset. -/
namespace BillRun

open Calendar

/-- Things with an event each, in order of their events; those that tie stay as they came. -/
def Event.arrange (event : α → Event) (xs : List α) : Except Fault (List α) :=
  let anchored := xs.map fun x => (event x).effective.mark.anchored
  if anchored.all id || !anchored.any id then
    .ok (xs.mergeSort fun a b => (event a).le (event b))
  else .error .incomparable

/-- Events in order. -/
structure Timeline where
  events : List Event
deriving DecidableEq

namespace Timeline

/-- The timeline of an account, or a fault when its events have no order. -/
def of (events : List Event) : Except Fault Timeline := do return ⟨← Event.arrange id events⟩

/-- The first of the later events that has the event's subscription. -/
def successor (e : Event) (later : List Event) : Option Event :=
  later.find? (·.subscription = e.subscription)

/-- The position of the first event after `position` that has the same subscription. Positions
count from the end when negative, and what lies after -1 is the whole timeline. -/
def next (t : Timeline) (position : Int) : Except Fault (Option Nat) :=
  match Sequence.at? t.events position with
  | none => .error .position
  | some e =>
    let start := Sequence.clamp t.events.length (position + 1)
    .ok ((t.events.drop start).findIdx? (·.subscription = e.subscription) |>.map (start + ·))

end Timeline

end BillRun
