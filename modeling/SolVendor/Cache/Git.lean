import SolVendor.Cache.Fetcher
/-!
# Cache — fetching with git

The fetcher that clones the tagged commit of a repository, and no more of
its history, with its submodules. What the program does when it is run is
given by a value of `Git`. It is not run with an argument that holds a NUL,
since arguments end at a NUL.
-/

namespace SolVendor

/-- What running the program does. -/
inductive Git where
  /-- There is no such program. -/
  | missing
  /-- It makes the destination with the given entries, if any, and ends with the status. -/
  | present (entries : Option (List (Location × Entry))) (status : ExitStatus)
deriving DecidableEq, Repr

namespace Git

/-- The arguments that a dependency is cloned with, as they are shown. -/
def arguments (dep : Dependency) (destination : Path) : List String :=
  ["clone", "--depth", "1", "--single-branch", "--branch", dep.version,
    "--recurse-submodules", "--shallow-submodules", dep.cloneUrl, destination.text]

/-- A program can be run with these arguments. -/
def isRunnable (args : List String) : Bool :=
  args.all fun arg => !arg.toList.contains '\x00'

/-- Clone a dependency: the program has to be there, and to end with success. It tells by its end
alone whether it could write the tree. -/
def fetcher (git : Git) : Fetcher := fun _ dep destination =>
  if !isRunnable (arguments dep destination) then
    ⟨none, true, .failed (.during .runGit .nulInArgument)⟩
  else
    match git with
    | missing => ⟨none, true, .failed (.during .runGit (.file .notFound))⟩
    | present entries status =>
      ⟨entries, false, if status.isSuccess then .done
        else .failed (.cloneFailed dep.cloneUrl dep.version status)⟩

end Git

end SolVendor
