import SolVendor.Host
/-!
# Action — commands in progress

An action reads and changes a host, and it ends with a value or with a
failure. A failure undoes nothing: what was changed before it stays
(`run_bind`). Besides `run` there are the few actions that all commands are
made of, each with the law that says what it comes to on a host.
-/

namespace SolVendor

/-- A command in progress. -/
abbrev Action := ExceptT Failure (StateM Host)

namespace Action

variable {α β : Type}

/-- Run an action: how it ends, and the host that it leaves. -/
def run (a : Action α) (h : Host) : Except Failure α × Host :=
  StateT.run (ExceptT.run a) h

/-- Look at the host. -/
def observe (f : Host → α) : Action α := do
  return f (← get)

/-- End with a result that is there already. -/
def ofExcept : Except Failure α → Action α
  | .ok a => return a
  | .error e => throw e

/-- End with the result of another action, as a value even if that is a failure. -/
def attempt (a : Action α) : Action (Except Failure α) := do
  let (result, h) := run a (← get)
  set h
  return result

/-- Say what was being done, if an action fails. -/
def during (activity : Activity) (a : Action α) : Action α := do
  ofExcept ((← attempt a).mapError fun cause => .during activity cause)

/-- Change the files, as seen from the working directory. -/
def change (f : FileSystem → Position → Except FileError FileSystem) : Action Unit := do
  let h ← get
  match f h.files h.cwd with
  | .ok files => set (h.withFiles files)
  | .error e => throw (.file e)

/-- Make a directory and those above it that are missing. -/
def makeDirs (p : Path) : Action Unit := do
  let h ← get
  let (result, files) := h.files.makeDirs h.cwd p
  set { h with files }
  ofExcept (result.mapError .file)

/-- Make the directories above a path that are missing. -/
def makeParents (p : Path) : Action Unit :=
  match p.parent? with
  | some parent => makeDirs parent
  | none => return ()

/-- Put an entry at a path, with the directories above it that are missing. -/
def plant (p : Path) (e : Entry) : Action Unit :=
  match e with
  | .dir => makeDirs p
  | .file bytes => do
    makeParents p
    change fun fs cwd => fs.write cwd p bytes
  | .link target => do
    makeParents p
    change fun fs cwd => fs.makeLink cwd p target

/-- Remove what stands at a path with all below it, if the path leads anywhere. -/
def removeTree (p : Path) : Action Unit := do
  if ← observe (·.pathExists p) then change fun fs cwd => fs.removeTree cwd p

/-! ## What running comes to -/

@[simp] theorem run_pure (x : α) (h : Host) : run (pure x) h = (.ok x, h) := rfl

@[simp] theorem run_throw (e : Failure) (h : Host) :
    run (throw e : Action α) h = (.error e, h) := rfl

@[simp] theorem run_get (h : Host) : run get h = (.ok h, h) := rfl

@[simp] theorem run_set (g h : Host) : run (set g) h = (.ok (), g) := rfl

@[simp] theorem run_modify (f : Host → Host) (h : Host) : run (modify f) h = (.ok (), f h) := rfl

/-- What follows an action runs on the host that it leaves, unless it has failed. -/
theorem run_bind (a : Action α) (f : α → Action β) (h : Host) :
    run (a >>= f) h =
      match run a h with
      | (.ok x, g) => run (f x) g
      | (.error e, g) => (.error e, g) := by
  simp only [run, bind, ExceptT.bind, ExceptT.run, ExceptT.mk, StateT.run, StateT.bind]
  rcases a h with ⟨_ | _, _⟩ <;> rfl

/-- An action with another one after it has failed, or the other one has run on the host that it has
left. -/
theorem run_bind_cases {a : Action α} {f : α → Action β} {h h' : Host} {result : Except Failure β}
    (hrun : run (a >>= f) h = (result, h')) :
    (∃ e, run a h = (.error e, h') ∧ result = .error e) ∨
      ∃ x g, run a h = (.ok x, g) ∧ run (f x) g = (result, h') := by
  rw [run_bind] at hrun
  rcases ha : run a h with ⟨e | x, g⟩
  · rw [ha] at hrun
    obtain ⟨rfl, rfl⟩ := Prod.mk.inj hrun
    exact .inl ⟨e, rfl, rfl⟩
  · rw [ha] at hrun
    exact .inr ⟨x, g, rfl, hrun⟩

/-- Both have succeeded. -/
theorem run_bind_eq_ok {a : Action α} {f : α → Action β} {h h' : Host} {y : β}
    (hrun : run (a >>= f) h = (.ok y, h')) :
    ∃ x g, run a h = (.ok x, g) ∧ run (f x) g = (.ok y, h') := by
  rcases run_bind_cases hrun with ⟨e, -, he⟩ | hok
  · cases he
  · exact hok

@[simp] theorem run_map (a : Action α) (f : α → β) (h : Host) :
    run (f <$> a) h = ((run a h).1.map f, (run a h).2) := by
  rw [map_eq_pure_bind, run_bind]
  split <;> simp_all [Except.map]

@[simp] theorem run_observe (f : Host → α) (h : Host) : run (observe f) h = (.ok (f h), h) := rfl

@[simp] theorem run_ofExcept (r : Except Failure α) (h : Host) : run (ofExcept r) h = (r, h) := by
  cases r <;> rfl

/-- An attempt succeeds, and leaves what the action leaves. -/
@[simp] theorem run_attempt (a : Action α) (h : Host) :
    run (attempt a) h = (.ok (run a h).1, (run a h).2) := rfl

/-- Only a failure is changed by saying what was being done. -/
@[simp] theorem run_during (activity : Activity) (a : Action α) (h : Host) :
    run (during activity a) h =
      ((run a h).1.mapError fun cause => .during activity cause, (run a h).2) := by
  simp only [during, run_bind, run_attempt, run_ofExcept]

/-- A change that is refused leaves the host as it is. -/
theorem run_change (f : FileSystem → Position → Except FileError FileSystem) (h : Host) :
    run (change f) h =
      match f h.files h.cwd with
      | .ok files => (.ok (), h.withFiles files)
      | .error e => (.error (.file e), h) := by
  simp only [change, run_bind, run_get]
  cases f h.files h.cwd <;> rfl

/-- The directories made before a failure remain. -/
theorem run_makeDirs (p : Path) (h : Host) :
    run (makeDirs p) h =
      ((h.files.makeDirs h.cwd p).1.mapError .file,
        { h with files := (h.files.makeDirs h.cwd p).2 }) := by
  simp only [makeDirs, run_bind, run_get, run_set, run_ofExcept]

end Action

end SolVendor
