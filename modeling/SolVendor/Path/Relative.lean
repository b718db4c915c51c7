import SolVendor.Path.Basic
/-!
# Path — one path seen from another

`relativeTo target base` leads from `base` to `target`: up as often as
`base` has components that the two do not share, then down what `target`
has beyond the shared ones. Two paths that do not even begin alike, such
as a relative and an absolute one, are not related.
-/

namespace SolVendor.Path

/-- How many components two lists share at the front. -/
def sharedLength : List Component → List Component → Nat
  | c :: cs, d :: ds => if c = d then sharedLength cs ds + 1 else 0
  | _, _ => 0

/-- The components that can follow others: names and two dots. -/
def isOnward : Component → Bool
  | .name _ | .up => true
  | .root | .here => false

/-- The path from `base` to `target`. -/
def relativeTo (target base : Path) : Option Path :=
  let ts := target.components
  let bs := base.components
  if ts.head? ≠ bs.head? then none
  else
    let shared := sharedLength ts bs
    match (bs.drop shared).map (fun _ => .up) ++ (ts.drop shared).filter isOnward with
    | [] => some ⟨"."⟩
    | cs => some (ofComponents cs)

end SolVendor.Path
