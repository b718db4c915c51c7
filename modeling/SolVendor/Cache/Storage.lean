import SolVendor.Action
import SolVendor.Cache.Fetcher
/-!
# Cache — the storage of fetched trees

A storage keeps the tree of each dependency in a directory of its own,
`owner/repo@version` below the storage's root. A dependency is fetched
once: into a hidden directory beside its tree, which takes the tree's name
only when the fetcher has succeeded. So a fetch that fails leaves no tree.

Fetches of one dependency exclude each other by a lock of the storage. A
crash of the fetcher poisons the lock for good; other dependencies, and
other storages on the same root, have locks of their own.
-/

namespace SolVendor

/-- A storage on a directory. The handle tells it from other storages. -/
structure Storage where
  root : Path
  handle : Nat
deriving DecidableEq, Repr

namespace Storage

/-- The name of the cache directory in the user's home. -/
def defaultDirName : String := ".dapp-pm"

/-- Open a storage, making its directory if it is missing. -/
def openAt (root : Path) : Action Storage := do
  Action.during (.openCache root) (Action.makeDirs root)
  let h ← get
  set { h with storages := h.storages + 1 }
  return ⟨root, h.storages⟩

/-- Open a storage on a given directory, or on the one in the user's home. -/
def openDefault (cacheDir : Option Path) : Action Storage := do
  let home ← Action.observe Host.home
  openAt (cacheDir.getD (home.join ⟨defaultDirName⟩))

/-- Where the tree of a dependency lies. -/
def treePath (s : Storage) (d : Dependency) : Path :=
  s.root.join d.cacheKey

/-- Where the tree is written before it is complete: a hidden name beside it, made of the tree's name
as it is shown. -/
def stagingPath (s : Storage) (d : Dependency) : Path :=
  let tree := s.treePath d
  let name := (tree.fileName?.map OsString.display).getD ""
  tree.withFileName ("." ++ name ++ ".partial" : String)

/-- A directory stands where the tree belongs. -/
def isCached (s : Storage) (d : Dependency) (h : Host) : Bool :=
  h.isDir (s.treePath d)

/-- A fetch of the dependency through this storage has crashed. -/
def isPoisoned (s : Storage) (d : Dependency) (h : Host) : Bool :=
  h.poisoned.any fun (handle, dep) => handle = s.handle && dep.path = d.path

/-- How often this storage has called a fetcher. -/
def callCount (s : Storage) (h : Host) : Nat :=
  (h.fetches.filter fun call => call.storage = s.handle).length

/-- Make the directory that the tree will be in. -/
def prepare (s : Storage) (d : Dependency) : Action Unit :=
  match (s.treePath d).parent? with
  | some parent => Action.during (.createDirectory parent) (Action.makeDirs parent)
  | none => return ()

/-- Remove what an earlier fetch has left behind. -/
def sweep (s : Storage) (d : Dependency) : Action Unit :=
  let staging := s.stagingPath d
  Action.during (.removeTree staging) (Action.removeTree staging)

/-- Call the fetcher, and tell how the call ended. -/
def call (s : Storage) (fetcher : Fetcher) (d : Dependency) : Action Ending := do
  let staging := s.stagingPath d
  let calls ← Action.observe s.callCount
  modify fun h => { h with fetches := h.fetches ++ [FetchCall.mk s.handle d staging] }
  (fetcher calls d staging).run staging

/-- Remove what a failed call has written. An error here is passed over. -/
def discard (s : Storage) (d : Dependency) : Action Unit := do
  let _ ← Action.attempt (Action.removeTree (s.stagingPath d))

/-- Give the complete tree its name. -/
def place (s : Storage) (d : Dependency) : Action Unit :=
  let staging := s.stagingPath d
  let tree := s.treePath d
  Action.during (.moveTree staging tree) (Action.change fun fs cwd => fs.rename cwd staging tree)

/-- Poison the lock of a dependency. -/
def poison (s : Storage) (d : Dependency) : Action Unit :=
  modify fun h => { h with poisoned := (s.handle, d) :: h.poisoned }

/-- Fetch a dependency unless its tree is there, and give the tree's path. -/
def fetch (s : Storage) (fetcher : Fetcher) (d : Dependency) : Action Path := do
  if ← Action.observe (s.isPoisoned d) then throw (.lockPoisoned d)
  let tree := s.treePath d
  if ← Action.observe (·.isDir tree) then return tree
  s.prepare d
  s.sweep d
  match ← s.call fetcher d with
  | .done =>
    s.place d
    return tree
  | .failed cause =>
    s.discard d
    throw (.during (.fetch d) cause)
  | .crashed =>
    s.poison d
    throw .crashed

/-- Read a dependency and make sure that its tree is there. A tree that is there already is taken
without a look at the lock. -/
def getDependency (s : Storage) (fetcher : Fetcher) (text : String) :
    Action (Dependency × Path) := do
  let d ← Action.ofExcept (Dependency.parse text)
  if ← Action.observe (s.isCached d) then return (d, s.treePath d)
  return (d, ← s.fetch fetcher d)

end Storage

end SolVendor
