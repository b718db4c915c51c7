import SolVendor.Failure
import SolVendor.FileSystem.Walk
import SolVendor.Graph.Basic
/-!
# Tree — discovery of the sources

The sources of a tree are looked for in a few directories at its top, in a
fixed order. Every entry below one of them that is reached through real
directories, and is a regular file or a link to one, counts if its name is
that of a source. Hidden and ignored entries count like any other. Below
one directory the order is that of the file system: a directory's entries
are sorted by name, and what is below an entry comes right after it.

Everything is looked up by a path that begins with the tree's. So an entry
is no file if there are too many links on its whole path, and a directory
whose path cannot be followed ends the discovery.
-/

namespace SolVendor.Tree

/-- The directories at the top of a tree that hold sources, in the order of the walk. -/
def sourceDirs : List String := ["src", "contracts", "libs"]

/-- The extension of a source file. -/
def sourceExtension : String := "sol"

/-- A source has a name before the dot of its extension. -/
def isSourceName (name : OsString) : Bool :=
  let ending := Path.dot :: (sourceExtension : OsString).bytes
  ending.isSuffixOf name.bytes && ending.length < name.bytes.length

/-- Why a place below the directory called `dir` cannot be listed, if it is a directory and its path
does not lead to it. -/
def failureAt (fs : FileSystem) (cwd : Position) (tree : Path) (dir : String) :
    Location × Entry → Option Failure
  | (rel, .dir) =>
    let full := tree.join (.ofNames (dir :: rel))
    match fs.locate cwd full with
    | .ok _ => none
    | .error e => some (.unlisted full e)
  | _ => none

/-- The source at a place below the directory called `dir`, if there is one. Its name is the last name
on the way as it is shown. -/
def sourceAt (fs : FileSystem) (cwd : Position) (tree : Path) (dir : String) (rel : Location) :
    Option DiscoveredFile :=
  match rel.getLast? with
  | some name =>
    let inner : Path := .ofNames (dir :: rel)
    if isSourceName name && fs.isFile cwd (tree.join inner) then some ⟨name.display, inner⟩
    else none
  | none => none

/-- The sources below the directory at the top that is called `dir`. None are there if there is no
such directory. -/
def discoverIn (fs : FileSystem) (cwd : Position) (tree : Path) (dir : String) :
    Except Failure (List DiscoveredFile) :=
  match fs.locate cwd (tree.join ⟨dir⟩) with
  | .error _ => .ok []
  | .ok start =>
    if fs.standing start ≠ some .dir then .ok []
    else
      let below := fs.below start.place
      match below.findSome? (failureAt fs cwd tree dir) with
      | some failure => .error failure
      | none => .ok (below.filterMap fun (rel, _) => sourceAt fs cwd tree dir rel)

/-- The sources of the tree at a path. -/
def discover (fs : FileSystem) (cwd : Position) (tree : Path) :
    Except Failure (List DiscoveredFile) :=
  List.flatten <$> sourceDirs.mapM fun dir => discoverIn fs cwd tree dir

end SolVendor.Tree
