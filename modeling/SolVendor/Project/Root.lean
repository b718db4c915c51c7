import SolVendor.Host
/-!
# Project — the root of a project

A project is a directory with a marker, a regular file called `Makefile`.
The root is the directory that was given, or else the working directory; a
given directory that exists is named by its canonical path.
-/

namespace SolVendor.Project

/-- The name of the file that marks a project. -/
def marker : String := "Makefile"

/-- The directory holds a project. -/
def isRoot (h : Host) (dir : Path) : Bool :=
  h.isFile (dir.join ⟨marker⟩)

/-- The directory, if it holds a project. -/
def check (h : Host) (dir : Path) : Except Failure Path :=
  if isRoot h dir then .ok dir else .error (.notProjectRoot dir)

/-- The root of the project, given or not. -/
def findRoot (h : Host) : Option Path → Except Failure Path
  | some given =>
    match h.files.canonical h.cwd given with
    | .ok dir => check h dir
    | .error _ => check h given
  | none =>
    match h.currentDir with
    | .ok dir => check h dir
    | .error e => .error (.file e)

end SolVendor.Project
