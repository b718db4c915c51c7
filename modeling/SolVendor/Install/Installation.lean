import SolVendor.Graph.Closure
import SolVendor.Install.Export
import SolVendor.Install.Resolution
/-!
# Install — the install command

The install command copies the selected files of a dependency, and all
that they import, into the project. It must be given a selection, and it
fails before the first copy if anything but a copy fails.
-/

namespace SolVendor

/-- The result of the install command. -/
structure Installation where
  dependency : Dependency
  destination : Path
  /-- The paths of the selected files, as shown. -/
  selected : List String
  /-- The paths of all copied files. -/
  files : List Path
  dryRun : Bool
deriving DecidableEq, Repr

namespace Installation

/-- The paths of some nodes of a graph, as shown. -/
def pathTexts (g : ImportGraph) (ids : NodeSet) : List String :=
  ids.toList.filterMap fun id => (g.node? id).map fun node => node.path.text

/-- Install from a storage with a settled configuration. -/
def ofStorage (s : Storage) (fetcher : Fetcher) (c : Config) : Action Installation := do
  let dependency ← Action.ofExcept c.spec
  if c.select.isEmpty then throw .nothingSelected
  let ⟨tree, graph⟩ ← s.resolve fetcher c
  let selected ← Action.ofExcept (graph.select c.select)
  let files := graph.closure selected.toList
  let dest := Export.destination (← Action.ofExcept c.root) c.libDir dependency
  let copied ← Export.run tree dest graph files c.dryRun
  return ⟨dependency, dest, pathTexts graph selected, copied, c.dryRun⟩

/-- The install command. -/
def run (fetcher : Fetcher) (c : Config) : Action Installation := do
  let c ← c.settled
  let s ← Storage.openDefault c.cacheDir
  ofStorage s fetcher c

end Installation

end SolVendor
