import SolVendor.Import.Resolve
import SolVendor.Failure
import Std.Data.ExtTreeMap
import Std.Data.ExtTreeSet
/-!
# Graph — the import graph of a tree

The nodes of the graph are source files, numbered in the order in which
they were found, and the edges lead from a file to those it imports. An
index maps the normal form of a path to the number of its node. Here are
the graph's questions: nodes and edges by number (`node?`, `deps`), nodes
by path (`lookup?`), and nodes by what a user writes (`find`, `select`).
-/

namespace SolVendor

/-- The number of a node. -/
abbrev NodeId := Nat

/-- A set of nodes, listed in ascending order. -/
abbrev NodeSet := Std.ExtTreeSet NodeId

/-- A file that was found in a tree: its name, and its path from the tree's root. -/
structure DiscoveredFile where
  name : String
  path : Path
deriving DecidableEq, Repr

/-- A node: a file with its path in normal form, and the nodes that its import statements lead to,
in their order. -/
structure SourceFile where
  name : String
  path : Path
  deps : List NodeId
deriving DecidableEq, Repr, Inhabited

/-- The nodes in order, and the number of the node at each path. -/
structure ImportGraph where
  nodes : Array SourceFile
  index : Std.ExtTreeMap Path NodeId

namespace ImportGraph

/-- The graph without nodes. -/
def empty : ImportGraph := ⟨#[], ∅⟩

instance : Inhabited ImportGraph := ⟨empty⟩

/-- The number of nodes. -/
def size (g : ImportGraph) : Nat := g.nodes.size

/-- The number of edges, each counted as often as it occurs. -/
def edgeCount (g : ImportGraph) : Nat :=
  (g.nodes.toList.flatMap SourceFile.deps).length

/-- The node with a given number. -/
def node? (g : ImportGraph) (id : NodeId) : Option SourceFile := g.nodes[id]?

/-- The nodes that a node imports, with repetitions; a number that is foreign to the graph has
none. -/
def deps (g : ImportGraph) (id : NodeId) : List NodeId :=
  ((g.node? id).map SourceFile.deps).getD []

/-- The node at a path, however the path is spelled. -/
def lookup? (g : ImportGraph) (p : Path) : Option NodeId := g.index[p.normalize]?

/-- The nodes with a given name, in order. -/
def named (g : ImportGraph) (name : String) : List (NodeId × SourceFile) :=
  (g.nodes.toList.zipIdx.filter fun (node, _) => node.name = name).map fun (node, id) => (id, node)

/-- The node that a query means: the one at this path, or else the only one of this name. -/
def find (g : ImportGraph) (query : String) : Except Failure NodeId :=
  match g.lookup? ⟨query⟩ with
  | some id => .ok id
  | none =>
    match g.named query with
    | [(id, _)] => .ok id
    | [] => .error (.noMatch query)
    | several => .error (.ambiguous query (several.map fun (_, node) => node.path))

/-- The nodes that the queries mean; the first query that means none fails. -/
def select (g : ImportGraph) (queries : List String) : Except Failure NodeSet := do
  let ids ← queries.mapM g.find
  return ids.foldl (·.insert ·) ∅

end ImportGraph

end SolVendor
