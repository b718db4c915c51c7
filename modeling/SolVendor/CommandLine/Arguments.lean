import SolVendor.Project.Config
/-!
# CommandLine — arguments

The arguments of a command are one positional, the dependency, and options
in any order. An option takes its value attached, as in `--root=dir` and
`-sfile`, or from the next argument, which must not look like an option.
An attached value is recorded at once. A value from the next argument is
recorded when the argument after it is read, so an argument that is
unknown is reported first. After `--` every argument is positional.
-/

namespace SolVendor

/-- What is wrong with a list of arguments; `help` is no fault, but asks for help. -/
inductive UsageError where
  | missingDependency
  | unknownArgument
  | repeatedArgument
  | unexpectedValue
  | badValue
  | noCommand
  | help
deriving DecidableEq, Repr

namespace Arguments

/-- The options that take a value. -/
inductive ValueOption where
  | root
  | cacheDir
  | libDir
  | select
deriving DecidableEq, Repr

/-- What can be written after two hyphens. -/
inductive Long where
  | value (opt : ValueOption)
  | json
  | dryRun
  | help
deriving DecidableEq, Repr

/-- The options by their names. -/
def longOf? : List Char → Option Long
  | ['r', 'o', 'o', 't'] => some (.value .root)
  | ['c', 'a', 'c', 'h', 'e', '-', 'd', 'i', 'r'] => some (.value .cacheDir)
  | ['l', 'i', 'b', '-', 'd', 'i', 'r'] => some (.value .libDir)
  | ['s', 'e', 'l', 'e', 'c', 't'] => some (.value .select)
  | ['j', 's', 'o', 'n'] => some .json
  | ['d', 'r', 'y', '-', 'r', 'u', 'n'] => some .dryRun
  | ['h', 'e', 'l', 'p'] => some .help
  | _ => none

/-- What has been read so far. -/
structure State where
  dependency : Option String := none
  root : Option Path := none
  cacheDir : Option Path := none
  libDir : Option Path := none
  select : List String := []
  json : Bool := false
  dryRun : Bool := false
  /-- The last option, if its value has not been recorded, and the value if it has been read. -/
  pending : Option (ValueOption × Option String) := none
  /-- Whether `--` has been read. -/
  onlyPositional : Bool := false
deriving DecidableEq, Repr

namespace State

/-- The value of an option that holds one path: it may be set once and not be empty. -/
def newPath (old : Option Path) (value : String) : Except UsageError (Option Path) :=
  if old.isSome then .error .repeatedArgument
  else if value = "" then .error .badValue
  else .ok (some ⟨value⟩)

/-- Record the value of an option. -/
def record (s : State) (opt : ValueOption) (value : String) : Except UsageError State := do
  match opt with
  | .root => return { s with root := ← newPath s.root value }
  | .cacheDir => return { s with cacheDir := ← newPath s.cacheDir value }
  | .libDir => return { s with libDir := ← newPath s.libDir value }
  | .select => return { s with select := s.select ++ [value] }

/-- Record the option that is pending. It must have got its value. -/
def flush (s : State) : Except UsageError State :=
  match s.pending with
  | none => .ok s
  | some (_, none) => .error .badValue
  | some (opt, some value) => { s with pending := none }.record opt value

/-- Read an option with its value attached. -/
def attach (s : State) (opt : ValueOption) (value : String) : Except UsageError State := do
  (← s.flush).record opt value

/-- Read an option whose value is to come. -/
def announce (s : State) (opt : ValueOption) : Except UsageError State := do
  return { ← s.flush with pending := some (opt, none) }

/-- Read what follows two hyphens. -/
def long (s : State) (cs : List Char) : Except UsageError State :=
  match cs.span (· ≠ '=') with
  | (name, rest) =>
    match longOf? name, rest with
    | none, _ => .error .unknownArgument
    | some (.value opt), [] => s.announce opt
    | some (.value opt), _ :: value => s.attach opt (String.ofList value)
    | some _, _ :: _ => .error .unexpectedValue
    | some .json, [] => do
      let s ← s.flush
      if s.json then throw .repeatedArgument
      return { s with json := true }
    | some .dryRun, [] => do
      let s ← s.flush
      if s.dryRun then throw .repeatedArgument
      return { s with dryRun := true }
    | some .help, [] => do
      let _ ← s.flush
      throw .help

/-- Read what follows one hyphen. -/
def short (s : State) : List Char → Except UsageError State
  | ['s'] => s.announce .select
  | 's' :: '=' :: value => s.attach .select (String.ofList value)
  | 's' :: value => s.attach .select (String.ofList value)
  | 'h' :: _ => do
    let _ ← s.flush
    throw .help
  | _ => .error .unknownArgument

/-- Read a positional argument. -/
def positional (s : State) (arg : String) : Except UsageError State :=
  if s.dependency.isSome then .error .unknownArgument
  else do return { ← s.flush with dependency := some arg }

/-- Read an argument that is no option: the value of a pending option, or a positional. -/
def value (s : State) (arg : String) : Except UsageError State :=
  match s.pending with
  | some (opt, none) => .ok { s with pending := some (opt, some arg) }
  | _ => s.positional arg

/-- Read one argument. -/
def read (s : State) (arg : String) : Except UsageError State :=
  if s.onlyPositional then s.positional arg
  else
    match arg.toList with
    | ['-', '-'] => .ok { s with onlyPositional := true }
    | '-' :: '-' :: cs => s.long cs
    | '-' :: c :: cs => s.short (c :: cs)
    | _ => s.value arg

/-- What has been read, when there are no more arguments. -/
def finish (s : State) : Except UsageError Config := do
  let s ← s.flush
  match s.dependency with
  | none => throw .missingDependency
  | some dependency =>
    return {
      dependency
      projectRoot := s.root
      cacheDir := s.cacheDir
      libDir := s.libDir.getD defaultLibDir
      select := s.select
      json := s.json
      dryRun := s.dryRun }

end State

/-- Read the arguments of a command. -/
def parse (args : List String) : Except UsageError Config := do
  (← args.foldlM State.read {}).finish

end Arguments

end SolVendor
