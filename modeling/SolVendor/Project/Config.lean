import SolVendor.Action
import SolVendor.Project.Root
/-!
# Project — the configuration of a command

A configuration holds what the user asked for. Settling it reads the
dependency and finds the project's root, and afterwards `root` and `spec`
answer. Settling takes the given root out of the configuration before the
project is looked for, so a configuration whose project was not found has
lost it.
-/

namespace SolVendor

/-- Where vendored trees go if nothing else is asked for. -/
def defaultLibDir : Path := ⟨"src/lib"⟩

/-- What the user asked for. -/
structure Config where
  /-- The dependency, as text. -/
  dependency : String
  /-- The root of the project: as given, and once settled as found. -/
  projectRoot : Option Path := none
  /-- The directory of fetched trees. -/
  cacheDir : Option Path := none
  /-- The directory of vendored trees, taken from the root. -/
  libDir : Path := defaultLibDir
  /-- The queries that select files. -/
  select : List String := []
  /-- Whether the report is JSON. -/
  json : Bool := false
  /-- Whether nothing should be written. -/
  dryRun : Bool := false
  /-- The dependency, once settled. -/
  dep : Option Dependency := none
deriving DecidableEq, Repr

namespace Config

/-- Read the dependency, then find the project's root. The configuration changes even when the
second fails. -/
def settle (h : Host) (c : Config) : Except Failure Unit × Config :=
  match Dependency.parse c.dependency with
  | .error e => (.error e, c)
  | .ok dep =>
    match Project.findRoot h c.projectRoot with
    | .error e => (.error e, { c with projectRoot := none })
    | .ok root => (.ok (), { c with projectRoot := some root, dep := some dep })

/-- The root of the project. -/
def root (c : Config) : Except Failure Path :=
  match c.projectRoot with
  | some root => .ok root
  | none => .error .unsettled

/-- The dependency. -/
def spec (c : Config) : Except Failure Dependency :=
  match c.dep with
  | some dep => .ok dep
  | none => .error .unsettled

/-- Settle a configuration as the first part of a command. -/
def settled (c : Config) : Action Config := do
  let (result, c) ← Action.observe c.settle
  Action.ofExcept result
  return c

end Config

end SolVendor
