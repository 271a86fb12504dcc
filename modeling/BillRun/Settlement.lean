import BillRun.Charge.Item

/-! Proposed items settled against those already issued.

Issued items that reverse each other drop out first (`surviving`). Then each proposed item is
matched with the first issued item left that bills the same thing, and both drop out (`unmatched`).
Issued recurring items that no proposal matched are credited (`credits`). What remains proposed and
the credits are what a new invoice holds (`settle`).

`unmatched` keeps, for each key, the queue of positions at which it was issued. `pairOff` is the
plain search that it replaces. -/
namespace BillRun.Settlement

open Calendar

/-! ### Reversed items -/

/-- The ids of a credit and of what it reverses. -/
def cancelled (items : List Item) : List Uuid :=
  items.flatMap fun i => match i.reverses with
    | some reversed => [i.id, reversed]
    | none => []

/-- The items that stand: neither credits nor reversed by one. -/
def surviving (items : List Item) : List Item := items.filter fun i => i.id ∉ cancelled items

/-! ### Matching -/

/-- The positions at which each key was issued, in order. -/
abbrev Queues := List (ChargeKey × List Nat)

namespace Queues

/-- The queues with one more position for a key, behind those it has. -/
def push (key : ChargeKey) (position : Nat) : Queues → Queues
  | [] => [(key, [position])]
  | (k, positions) :: rest =>
    if k = key then (k, positions ++ [position]) :: rest
    else (k, positions) :: push key position rest

/-- The positions of a list of items. -/
def ofItems (items : List Item) : Queues :=
  items.zipIdx.foldl (fun queues (item, position) => queues.push item.key position) []

/-- The first position queued for a key, and the queues without it. -/
def pop (key : ChargeKey) : Queues → Option (Nat × Queues)
  | [] => none
  | (k, positions) :: rest =>
    if k = key then
      match positions with
      | [] => none
      | position :: positions => some (position, (k, positions) :: rest)
    else (pop key rest).map fun (position, rest) => (position, (k, positions) :: rest)

end Queues

/-- The positions matched, and the proposed items that found none. -/
def assign : Queues → List Item → List Nat × List Item
  | _, [] => ([], [])
  | queues, item :: items =>
    match queues.pop item.key with
    | some (position, queues) =>
      let (matched, rest) := assign queues items
      (position :: matched, rest)
    | none =>
      let (matched, rest) := assign queues items
      (matched, item :: rest)

/-- What is left of the proposed and of the issued items, in their order. -/
def unmatched (proposed issued : List Item) : List Item × List Item :=
  let (matched, rest) := assign (.ofItems issued) proposed
  (rest, (issued.zipIdx.filter fun (_, position) => position ∉ matched).map Prod.fst)

/-- The list without its first item that bills the same thing. -/
def eraseSame (item : Item) : List Item → Option (List Item)
  | [] => none
  | i :: items => if item.same i then some items else (eraseSame item items).map (i :: ·)

/-- Each proposed item in turn takes the first issued item that it equals. -/
def pairOff : List Item → List Item → List Item × List Item
  | [], issued => ([], issued)
  | item :: items, issued =>
    match eraseSame item issued with
    | some issued => pairOff items issued
    | none =>
      let (rest, issued) := pairOff items issued
      (item :: rest, issued)

/-! ### Credits -/

/-- Credits for the recurring items, with ids in order. -/
def credits (invoice : Uuid) (now : Moment) :
    (ids : Nat → Uuid) → List Item → Except Fault (List Item)
  | _, [] => .ok []
  | ids, i :: items =>
    match i.credit? (ids 0) invoice now with
    | none => credits invoice now ids items
    | some credit => do return (← credit) :: (← credits invoice now (fun n => ids (n + 1)) items)

/-- What a new invoice holds: the proposed items that were not issued yet, and credits for the
issued ones that are proposed no more. -/
def settle (proposed issued : List Item) (ids : Nat → Uuid) (invoice : Uuid) (now : Moment) :
    Except Fault (List Item) := do
  let (proposed, issued) := unmatched proposed (surviving issued)
  return proposed ++ (← credits invoice now ids issued)

end BillRun.Settlement
