import SolVendor.Cache.Storage
import SolVendor.Concurrency.Process
/-!
# Cache — concurrent use of storages

Threads that use storages share the host and the locks of the storages.
Here is what each of them does, step by step: a look at the tree, taking
the lock, a look at the staging tree, its removal, each single entry that
the fetcher writes, the move of the complete tree, and giving the lock
back. Between two steps of one thread the others go on.

What happens on the way is recorded. A thread that nobody disturbs does
what `Storage.fetch` does in one go.
-/

namespace SolVendor

/-- What has happened, and through which thread. -/
inductive Event where
  /-- The lock was free. Unless it is poisoned, the thread has taken it. -/
  | acquired (thread : Nat) (poisoned : Bool)
  /-- Nothing is left at the staging path. -/
  | cleared (thread : Nat)
  /-- What stood at the staging path has been removed. -/
  | removed (thread : Nat)
  /-- A call of the fetcher has begun. -/
  | started (thread : Nat)
  /-- The call has ended. -/
  | ended (thread : Nat) (ending : Ending)
  /-- The complete tree has been given its name. -/
  | moved (thread : Nat)
  /-- The lock has been given back. -/
  | released (thread : Nat)
deriving DecidableEq, Repr

/-- A lock that is taken: by which thread, of which storage, for which dependency. -/
structure Guard where
  thread : Nat
  storage : Nat
  dependency : Dependency
deriving DecidableEq, Repr

/-- What threads that use storages share. -/
structure Shared where
  host : Host
  /-- The locks that are taken. -/
  guards : List Guard
  /-- What has happened, oldest first. -/
  events : List Event

namespace Shared

/-- Nobody has taken a lock, and nothing has happened yet. -/
def ofHost (h : Host) : Shared := ⟨h, [], []⟩

/-- The lock of a dependency in a storage is free. -/
def isFree (s : Storage) (d : Dependency) (σ : Shared) : Bool :=
  σ.guards.all fun g => !(g.storage = s.handle && g.dependency.path = d.path)

/-- Run an action on the host, and record what has happened. -/
def act {α : Type} (a : Action α) (happened : Except Failure α → List Event) (σ : Shared) :
    Except Failure α × Shared :=
  let (result, host) := a.run σ.host
  (result, { σ with host, events := σ.events ++ happened result })

end Shared

namespace Storage

/-- A step that runs an action. -/
def act {α : Type} (a : Action α) (happened : Except Failure α → List Event := fun _ => []) :
    Task Shared α :=
  Task.atomic (Shared.act a happened)

/-- Wait until the lock is free, and take it. A poisoned lock is given back at once. -/
def acquire (thread : Nat) (s : Storage) (d : Dependency) : Task Shared Unit :=
  .step (Shared.isFree s d)
    (fun σ =>
      let poisoned := s.isPoisoned d σ.host
      { σ with
        guards := if poisoned then σ.guards else ⟨thread, s.handle, d⟩ :: σ.guards
        events := σ.events ++ [.acquired thread poisoned] })
    fun σ => .done (if s.isPoisoned d σ.host then .error (.lockPoisoned d) else .ok ())

/-- Give the lock back. -/
def release (thread : Nat) : Task Shared Unit :=
  Task.atomic fun σ =>
    (.ok (), { σ with
      guards := σ.guards.filter fun g => g.thread ≠ thread
      events := σ.events ++ [.released thread] })

/-- Remove what is at the staging path, if anything is found there. -/
def clear (thread : Nat) (s : Storage) (d : Dependency) : Task Shared Unit := do
  let staging := s.stagingPath d
  let found ← act (Action.observe (·.pathExists staging)) fun
    | .ok false => [.cleared thread]
    | _ => []
  if found then
    act (Action.during (.removeTree staging) (Action.change fun fs cwd => fs.removeTree cwd staging)) fun
      | .ok () => [.removed thread, .cleared thread]
      | .error _ => []

/-- Begin a call of the fetcher, and give the number of the calls before it. -/
def begin (thread : Nat) (s : Storage) (d : Dependency) : Task Shared Nat :=
  act (do
    let calls ← Action.observe s.callCount
    modify fun h => { h with fetches := h.fetches ++ [FetchCall.mk s.handle d (s.stagingPath d)] }
    return calls) fun _ => [.started thread]

/-- Write entries, one in each step. -/
def writeEach (strict : Bool) : List (Path × Entry) → Task Shared Unit
  | [] => return ()
  | (p, e) :: rest => do
    if strict then act (Action.plant p e)
    else
      let _ ← act (Action.attempt (Action.plant p e))
    writeEach strict rest

/-- Call the fetcher, and tell how the call ended. -/
def callEach (thread : Nat) (s : Storage) (fetcher : Fetcher) (d : Dependency) :
    Task Shared Ending := do
  let staging := s.stagingPath d
  let calls ← begin thread s d
  let delivery := fetcher calls d staging
  let written ← Task.attempt (writeEach delivery.strict (delivery.writes staging))
  let ending := delivery.endingOf written
  act (pure ending) fun _ => [.ended thread ending]

/-- Remove what a failed call has written. An error here is passed over. -/
def discardEach (thread : Nat) (s : Storage) (d : Dependency) : Task Shared Unit := do
  let staging := s.stagingPath d
  if ← act (Action.observe (·.pathExists staging)) then
    let _ ← act (Action.attempt (Action.change fun fs cwd => fs.removeTree cwd staging)) fun
      | .ok (.ok ()) => [.removed thread]
      | _ => []

/-- What a thread does while it has the lock. -/
def fetchLocked (thread : Nat) (s : Storage) (fetcher : Fetcher) (d : Dependency) :
    Task Shared Path := do
  let tree := s.treePath d
  if ← act (Action.observe (·.isDir tree)) then return tree
  act (s.prepare d)
  clear thread s d
  match ← callEach thread s fetcher d with
  | .done =>
    act (s.place d) fun
      | .ok () => [.moved thread]
      | .error _ => []
    return tree
  | .failed cause =>
    discardEach thread s d
    throw (.during (.fetch d) cause)
  | .crashed =>
    act (s.poison d)
    throw .crashed

/-- Fetch a dependency, step by step. The lock is given back however that ends. -/
def fetchEach (thread : Nat) (s : Storage) (fetcher : Fetcher) (d : Dependency) :
    Task Shared Path := do
  acquire thread s d
  let result ← Task.attempt (fetchLocked thread s fetcher d)
  release thread
  Task.ofExcept result

/-- Read a dependency and make sure that its tree is there, step by step. -/
def getEach (thread : Nat) (s : Storage) (fetcher : Fetcher) (text : String) :
    Task Shared (Dependency × Path) := do
  let d ← Task.ofExcept (Dependency.parse text)
  if ← act (Action.observe (s.isCached d)) then return (d, s.treePath d)
  return (d, ← fetchEach thread s fetcher d)

end Storage

/-- What a thread is asked for. -/
inductive Request where
  | fetch (s : Storage) (d : Dependency)
  | get (s : Storage) (text : String)

namespace Request

/-- What the thread does. -/
def process (fetcher : Fetcher) (thread : Nat) : Request → Task Shared (Dependency × Path)
  | fetch s d => do return (d, ← s.fetchEach thread fetcher d)
  | get s text => s.getEach thread fetcher text

/-- One thread for each request, none of which has begun. -/
def pool (fetcher : Fetcher) (requests : List Request) (h : Host) :
    Pool Shared (Except Failure (Dependency × Path)) :=
  ⟨.ofHost h, requests.mapIdx (process fetcher)⟩

/-- Commands that have been started together: one thread for each, with a fetcher of its own. -/
def commands (fetchers : Nat → Fetcher) (requests : List Request) (h : Host) :
    Pool Shared (Except Failure (Dependency × Path)) :=
  ⟨.ofHost h, requests.mapIdx fun thread request => request.process (fetchers thread) thread⟩

end Request

end SolVendor
