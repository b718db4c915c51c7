import SolVendor.Path.Basic
import Std.Data.ExtTreeMap
/-!
# FileSystem — places and what stands there

A location is a list of names, from the root down, of which none is
resolved further. A file system maps locations to entries: directories,
files with their bytes, and links with the path they hold. The root is
always a directory. Since the map is extensional, two file systems with
the same entries are equal, and its order is the lexicographic one, in
which a directory stands right before what is below it.

The operations here act on locations and know nothing of links.
-/

namespace SolVendor

/-- A place, as the names from the root down. -/
abbrev Location := List OsString

namespace Location

/-- The absolute path that names the place. -/
def toPath (loc : Location) : Path :=
  .ofComponents (.root :: loc.map .name)

/-- The places above, from the root down, the place itself not included. -/
def above (loc : Location) : List Location :=
  (List.range loc.length).map fun n => loc.take n

end Location

/-- What stands at a place. -/
inductive Entry where
  | dir
  | file (bytes : List UInt8)
  | link (target : Path)
deriving DecidableEq, Repr

/-- The reasons for which the file system refuses an operation. -/
inductive FileError where
  | notFound
  | alreadyExists
  | notDirectory
  | isDirectory
  | invalidArgument
  | nameTooLong
  | notEmpty
  | tooManyLinks
  /-- The path holds a NUL. -/
  | nulInPath
  /-- What should be copied is no regular file. -/
  | notRegular
deriving DecidableEq, Repr

namespace FileError

/-- The error as it is shown. -/
def message : FileError → String
  | notFound => "No such file or directory (os error 2)"
  | alreadyExists => "File exists (os error 17)"
  | notDirectory => "Not a directory (os error 20)"
  | isDirectory => "Is a directory (os error 21)"
  | invalidArgument => "Invalid argument (os error 22)"
  | nameTooLong => "File name too long (os error 36)"
  | notEmpty => "Directory not empty (os error 39)"
  | tooManyLinks => "Too many levels of symbolic links (os error 40)"
  | nulInPath => "file name contained an unexpected NUL byte"
  | notRegular => "the source path is neither a regular file nor a symlink to a regular file"

end FileError

/-- The entries of all places but the root. -/
structure FileSystem where
  entries : Std.ExtTreeMap Location Entry

namespace FileSystem

/-- The file system in which the root is empty. -/
def empty : FileSystem := ⟨∅⟩

/-- What stands at a place, if anything does. -/
def get? (fs : FileSystem) (loc : Location) : Option Entry :=
  if loc = [] then some .dir else fs.entries[loc]?

/-- Put an entry at a place, whatever stood there. -/
def put (fs : FileSystem) (loc : Location) (e : Entry) : FileSystem :=
  ⟨fs.entries.insert loc e⟩

/-- Remove a place and all that is below it. -/
def cut (fs : FileSystem) (loc : Location) : FileSystem :=
  ⟨fs.entries.filter fun k _ => !loc.isPrefixOf k⟩

/-- A place and what is below it, in order, named from there. -/
def subtree (fs : FileSystem) (loc : Location) : List (Location × Entry) :=
  fs.entries.toList.filterMap fun (k, e) => (loc.isPrefixOf? k).map fun rel => (rel, e)

/-- What is strictly below a place, in order, named from there. -/
def below (fs : FileSystem) (loc : Location) : List (Location × Entry) :=
  (fs.subtree loc).filter fun (rel, _) => rel ≠ []

/-- Take a place with all below it away from `src` and put it at `dst`, in place of what stood
there. -/
def graft (fs : FileSystem) (src dst : Location) : FileSystem :=
  let moved := (fs.subtree src).map fun (rel, e) => (dst ++ rel, e)
  ⟨((fs.cut src).cut dst).entries.insertMany moved⟩

/-- Make a directory at the place if nothing stands there. -/
def ensureDir (fs : FileSystem) (loc : Location) : FileSystem :=
  if (fs.get? loc).isSome then fs else fs.put loc .dir

/-- Put an entry at a place, with directories where nothing stands on the way down to it. A
directory that is there already stays. -/
def plant (fs : FileSystem) (loc : Location) (e : Entry) : FileSystem :=
  let fs := loc.above.foldl ensureDir fs
  match e with
  | .dir => fs.ensureDir loc
  | _ => fs.put loc e

end FileSystem

end SolVendor
