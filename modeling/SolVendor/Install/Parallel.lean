import SolVendor.Concurrency.Process
import SolVendor.Install.Export
/-!
# Install — copying files at the same time

The files of an export are copied by threads that share the host. Here is
what each of them does, step by step: every attempt to make a directory, a
look at what stands there instead, opening the file to copy, opening the
file to write, which empties it, and the transfer of the bytes. Between two
steps of one copy the others go on.

Once a copy has failed no other one is begun, and those that have been
begun are waited for. So an export may end in many ways, and `Ends` says in
which.
-/

namespace SolVendor.Export

/-- A step on the files, as seen from the working directory. One that is refused changes nothing. -/
def onFiles {α : Type} (f : FileSystem → Position → Except FileError (α × FileSystem)) :
    Task Host α :=
  Task.atomic fun h =>
    match f h.files h.cwd with
    | .ok (a, files) => (.ok a, { h with files })
    | .error e => (.error (.file e), h)

/-- Make one directory, and tell how that went. -/
def tryDir (p : Path) : Task Host (Except Failure Unit) :=
  Task.attempt (onFiles fun fs cwd => do return ((), ← fs.makeDir cwd p))

/-- It is no failure if the directory is there already. -/
def acceptDir (p : Path) : Except Failure Unit → Task Host Unit
  | .ok () => return ()
  | .error e => do
    unless ← Task.observe (·.isDir p) do throw e

/-- Make the first of the paths, step by step, where each next one is the parent of the one before. -/
def makeFirstEach : List Path → Task Host Unit
  | [] => throw (.file .notFound)
  | p :: above =>
    if p = .empty then return ()
    else do
      match ← tryDir p with
      | .error (.file .notFound) => do
        makeFirstEach above
        acceptDir p (← tryDir p)
      | made => acceptDir p made

/-- Open the file to copy. It has to be a regular file. -/
def openSource (src : Path) : Task Host Position :=
  onFiles fun fs cwd => do
    let pos ← fs.locate cwd src
    match fs.standing pos with
    | some (.file _) => return (pos, fs)
    | _ => throw .notRegular

/-- Open the file to write, and empty it. -/
def openTarget (dst : Path) : Task Host Location :=
  onFiles fun fs cwd => do
    let loc ← fs.writePlace cwd dst
    return (loc, fs.put loc (.file []))

/-- Write what the file to copy holds now. -/
def transfer (src : Position) (dst : Location) : Task Host Unit :=
  onFiles fun fs _ => do return ((), fs.put dst (.file (← fs.read src)))

/-- Make the directories on the way to a path, step by step. -/
@[irreducible] def makeWayEach (dst : Path) : Task Host Unit :=
  match dst.parent? with
  | some parent => Task.during (.createDirectory parent) (makeFirstEach parent.ancestors)
  | none => pure ()

/-- Copy the bytes of a regular file, step by step. -/
def copyBytesEach (src dst : Path) : Task Host Unit :=
  Task.during (.copyFile src dst) do
    let pos ← openSource src
    let loc ← openTarget dst
    transfer pos loc

/-- Copy the file at a path of the tree to the same path of the destination, step by step. -/
def copyEach (tree dest file : Path) : Task Host Unit := do
  makeWayEach (dest.join file)
  copyBytesEach (tree.join file) (dest.join file)

/-- One copy for each path, none of which has begun. -/
def copies (tree dest : Path) (paths : List Path) (h : Host) : Pool Host (Except Failure Unit) :=
  ⟨h, paths.map (copyEach tree dest)⟩

/-- How an export may end that copies its files at the same time, and the host that it leaves. -/
inductive Ends (tree dest : Path) (g : ImportGraph) (files : NodeSet) (h : Host) :
    Except Failure (List Path) → Host → Prop where
  /-- The nodes do not all belong to the graph, and no copy is begun. -/
  | refused {e : Failure} : pathsOf g files = .error e → Ends tree dest g files h (.error e) h
  /-- All copies have succeeded. -/
  | copied {paths : List Path} {schedule : List Nat} {pool : Pool Host (Except Failure Unit)} :
      pathsOf g files = .ok paths → (copies tree dest paths h).run schedule = some pool →
      (∀ i < paths.length, pool.result? i = some (.ok ())) →
      Ends tree dest g files h (.ok paths) pool.shared
  /-- A copy has failed, and all that have been begun have ended. -/
  | failed {paths : List Path} {schedule : List Nat} {pool : Pool Host (Except Failure Unit)}
      {i : Nat} {e : Failure} :
      pathsOf g files = .ok paths → (copies tree dest paths h).run schedule = some pool →
      (∀ j ∈ schedule, ∃ r, pool.result? j = some r) → pool.result? i = some (.error e) →
      Ends tree dest g files h (.error e) pool.shared

end SolVendor.Export
