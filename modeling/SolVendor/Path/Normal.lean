import SolVendor.Path.Basic
/-!
# Path — normal forms

The normal form of a path folds its components from left to right. A dot
stays in place. Two dots take back the name before them, stay at the root,
and are kept where there is nothing to take back. Nothing is looked up in
a file system: the normal form says where a path leads if no name on the
way is a link.
-/

namespace SolVendor.Path

/-- Take one component from the place reached so far. The place is a list of components, the last
one first. -/
def move (trail : List Component) : Component → List Component
  | .here => trail
  | .up =>
    match trail with
    | .name _ :: rest => rest
    | .root :: _ => trail
    | _ => .up :: trail
  | c => c :: trail

/-- The components of the place that `cs` leads to. -/
def fold (cs : List Component) : List Component :=
  (cs.foldl move []).reverse

/-- The normal form; a path that leads nowhere else is a dot. -/
def normalize (p : Path) : Path :=
  match fold p.components with
  | [] => ⟨"."⟩
  | cs => ofComponents cs

end SolVendor.Path
