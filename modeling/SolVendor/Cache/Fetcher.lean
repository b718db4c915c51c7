import SolVendor.Action
/-!
# Cache — fetchers

A fetcher retrieves the tree of a dependency into a destination. All that
the cache sees of a call is its delivery: the entries that are written
below the destination, in order, and how the call ends. A fetcher that
fails or crashes may have written some entries before.

Entries are written by path, so the file system may refuse them. A strict
delivery ends there and the call has failed; any other passes over what it
cannot write.
-/

namespace SolVendor

/-- How a call of a fetcher ends. -/
inductive Ending where
  | done
  | failed (cause : Failure)
  | crashed
deriving DecidableEq, Repr

/-- What a call of a fetcher does. Without entries no destination is made; an empty list of them
makes an empty directory. -/
structure Delivery where
  entries : Option (List (Location × Entry))
  /-- An entry that cannot be written makes the call fail. -/
  strict : Bool
  /-- How the call ends after the entries. -/
  ending : Ending
deriving DecidableEq, Repr

namespace Delivery

/-- The paths at which something is written, with the entries. The destination comes first. -/
def writes (delivery : Delivery) (destination : Path) : List (Path × Entry) :=
  match delivery.entries with
  | some entries =>
    (destination, .dir) :: entries.map fun (rel, e) => (destination.join (.ofNames rel), e)
  | none => []

/-- Write entries in order. Unless that is strict, those that are refused are passed over. -/
def write (strict : Bool) : List (Path × Entry) → Action Unit
  | [] => return ()
  | (p, e) :: rest => do
    if strict then Action.plant p e
    else
      let _ ← Action.attempt (Action.plant p e)
    write strict rest

/-- How a delivery ends: as it says, unless an entry could not be written. -/
def endingOf (delivery : Delivery) : Except Failure Unit → Ending
  | .ok () => delivery.ending
  | .error cause => .failed cause

/-- Deliver to a destination, and tell how the call ends. -/
def run (delivery : Delivery) (destination : Path) : Action Ending := do
  match ← Action.attempt (write delivery.strict (delivery.writes destination)) with
  | .ok () => return delivery.ending
  | .error cause => return .failed cause

end Delivery

/-- A fetcher gives its delivery from the number of calls that came before, the dependency and the
destination. -/
abbrev Fetcher := Nat → Dependency → Path → Delivery

namespace Fetcher

/-- The fetcher that delivers by a list, and once that has run out by its last entry. -/
def scripted (script : List Delivery) : Fetcher := fun calls _ _ =>
  match script[calls]? <|> script.getLast? with
  | some delivery => delivery
  | none => ⟨none, true, .done⟩

end Fetcher

end SolVendor
