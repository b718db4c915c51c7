import SolVendor.Cache.Storage
import SolVendor.Project.Config
import SolVendor.Tree.Graph
/-!
# Install — a dependency with its graph

What both commands begin with: the tree of the dependency, fetched if it
is not there, and the import graph of its sources.
-/

namespace SolVendor

/-- The tree of a dependency, and its import graph. -/
structure Resolution where
  tree : Path
  graph : ImportGraph

/-- Fetch the dependency of a configuration if needed, and build its graph. -/
def Storage.resolve (s : Storage) (fetcher : Fetcher) (c : Config) : Action Resolution := do
  let (_, tree) ← s.getDependency fetcher c.dependency
  let graph ← Action.observe fun h => Tree.graph h.files h.cwd tree
  return ⟨tree, ← Action.ofExcept graph⟩

end SolVendor
