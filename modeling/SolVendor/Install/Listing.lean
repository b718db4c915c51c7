import SolVendor.Install.Resolution
/-!
# Install — the list command

The list command tells what a dependency holds: every source file in the
order of the graph, whether it is selected, and the paths of the files
that it imports. Paths are listed as they are shown, so those that are not
Unicode may be listed alike.
-/

namespace SolVendor

/-- A source file as it is listed. -/
structure ListedFile where
  name : String
  path : String
  selected : Bool
  /-- The paths of the files it imports, as shown, in the order of its import statements. -/
  deps : List String
deriving DecidableEq, Repr

/-- The result of the list command. -/
structure Listing where
  dependency : Dependency
  tree : Path
  files : List ListedFile
  /-- The number of edges of the graph. -/
  edges : Nat
deriving DecidableEq, Repr

namespace Listing

/-- The files of a graph, with those of a selection marked. -/
def filesOf (g : ImportGraph) (selected : NodeSet) : List ListedFile :=
  g.nodes.toList.zipIdx.map fun (node, id) =>
    { name := node.name
      path := node.path.text
      selected := selected.contains id
      deps := (g.deps id).filterMap fun dep => (g.node? dep).map fun node => node.path.text }

/-- List a dependency with a storage and a settled configuration. -/
def ofStorage (s : Storage) (fetcher : Fetcher) (c : Config) : Action Listing := do
  let dependency ← Action.ofExcept c.spec
  let ⟨tree, graph⟩ ← s.resolve fetcher c
  let selected ← Action.ofExcept (graph.select c.select)
  return ⟨dependency, tree, filesOf graph selected, graph.edgeCount⟩

/-- The list command. -/
def run (fetcher : Fetcher) (c : Config) : Action Listing := do
  let c ← c.settled
  let s ← Storage.openDefault c.cacheDir
  ofStorage s fetcher c

end Listing

end SolVendor
