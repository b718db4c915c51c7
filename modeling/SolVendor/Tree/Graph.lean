import SolVendor.Graph.Build
import SolVendor.Tree.Discovery
/-!
# Tree — the import graph of a tree on disk

The files of a graph are opened below the root of their tree. A path that
leads nowhere fails when it is opened; a directory can be opened, but not
read.
-/

namespace SolVendor.Tree

/-- Open the files of a tree at the paths of their nodes. -/
def opener (fs : FileSystem) (cwd : Position) (tree : Path) : Opener := fun file =>
  let full := tree.join file
  match fs.locate cwd full with
  | .error e => .error (.during (.openFile full) (.file e))
  | .ok pos =>
    match fs.read pos with
    | .ok bytes => .ok ⟨bytes, none⟩
    | .error e => .ok ⟨[], some (.file e)⟩

/-- The import graph of some files of a tree. -/
def graphOf (fs : FileSystem) (cwd : Position) (tree : Path) (files : List DiscoveredFile) :
    Except Failure ImportGraph :=
  ImportGraph.build files (opener fs cwd tree)

/-- The import graph of all sources of a tree. -/
def graph (fs : FileSystem) (cwd : Position) (tree : Path) : Except Failure ImportGraph := do
  graphOf fs cwd tree (← discover fs cwd tree)

end SolVendor.Tree
