import SolVendor.Action
import SolVendor.Graph.Basic
/-!
# Install — copying files into a project

The files of a selection are copied from a tree to the same paths below a
destination, in the order of their numbers; the first that cannot be
copied ends the export. With a dry run the same paths are given and
nothing is written.
-/

namespace SolVendor.Export

/-- Where the files of a dependency land in a project. -/
def destination (projectRoot libDir : Path) (d : Dependency) : Path :=
  (projectRoot.join libDir).join d.cacheKey

/-- The paths of some nodes, in order; each must belong to the graph. -/
def pathsOf (g : ImportGraph) (files : NodeSet) : Except Failure (List Path) :=
  files.toList.mapM fun id =>
    match g.node? id with
    | some node => .ok node.path
    | none => .error (.foreignNode id)

/-- Copy the file at a path of the tree to the same path of the destination, making the
directories on the way. -/
def copyFile (tree dest file : Path) : Action Unit := do
  let src := tree.join file
  let dst := dest.join file
  match dst.parent? with
  | some parent => Action.during (.createDirectory parent) (Action.makeDirs parent)
  | none => pure ()
  Action.during (.copyFile src dst) (Action.change fun fs cwd => fs.copy cwd src dst)

/-- Copy the files at some paths, one after the other. -/
def copyAll (tree dest : Path) : List Path → Action Unit
  | [] => return ()
  | file :: files => do
    copyFile tree dest file
    copyAll tree dest files

/-- Copy the files of some nodes, and give their paths. -/
def run (tree dest : Path) (g : ImportGraph) (files : NodeSet) (dryRun : Bool) :
    Action (List Path) := do
  let paths ← Action.ofExcept (pathsOf g files)
  unless dryRun do copyAll tree dest paths
  return paths

end SolVendor.Export
