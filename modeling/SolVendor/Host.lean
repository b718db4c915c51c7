import SolVendor.Failure
import SolVendor.FileSystem.Change
/-!
# Host — the machine that commands run on

A host is made of the file system, the working directory and the home
directory, and of what outlives a single fetch: the number of storages
opened so far, the locks that a crash has poisoned, and a record of all
calls of fetchers. The working directory is a position, so it goes on when
it is removed (`withFiles`).
-/

namespace SolVendor

/-- One call of a fetcher: for which storage, of which dependency, to which path. -/
structure FetchCall where
  storage : Nat
  dependency : Dependency
  destination : Path
deriving DecidableEq, Repr

/-- The machine that commands run on. -/
structure Host where
  files : FileSystem
  cwd : Position
  home : Path
  /-- The number of storages opened so far, which is the handle of the next one. -/
  storages : Nat
  /-- The locks that are poisoned, as the handle of a storage and a dependency. -/
  poisoned : List (Nat × Dependency)
  /-- The calls of fetchers, oldest first. -/
  fetches : List FetchCall

namespace Host

/-- A host on which nothing has happened yet. -/
def ofFiles (files : FileSystem) (cwd : Location) (home : Path) : Host :=
  ⟨files, .ofPlace cwd, home, 0, [], []⟩

/-- The host with other files. The working directory is lost if it is not among them. -/
def withFiles (h : Host) (files : FileSystem) : Host :=
  { h with files, cwd := files.settle h.cwd }

/-- The working directory's path, unless it has been removed. -/
def currentDir (h : Host) : Except FileError Path :=
  if h.cwd.lost = 0 then .ok h.cwd.place.toPath else .error .notFound

/-- The other files are those of the host. -/
@[simp] theorem files_withFiles (h : Host) (files : FileSystem) :
    (h.withFiles files).files = files := rfl

/-- The working directory goes on where it is if that is among the other files. -/
theorem withFiles_eq {h : Host} {files : FileSystem}
    (hdir : files.get? h.cwd.place = some .dir) : h.withFiles files = { h with files } := by
  simp [withFiles, FileSystem.settle_eq_self hdir]

/-- The path leads to a directory. -/
def isDir (h : Host) (p : Path) : Bool := h.files.isDir h.cwd p

/-- The path leads to a regular file. -/
def isFile (h : Host) (p : Path) : Bool := h.files.isFile h.cwd p

/-- Something stands where the path leads. -/
def pathExists (h : Host) (p : Path) : Bool := h.files.pathExists h.cwd p

end Host

end SolVendor
