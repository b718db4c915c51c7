import SolVendor.Failure
/-!
# Concurrency — processes in steps

A process works on a state that it shares with others. It goes on step by
step; between two steps of it the others may take any of theirs. A step
can be taken when the process is ready for it, changes the shared state,
and what comes after it depends on the state that it has found.

A pool is a shared state with some processes, and a schedule says whose
step is next. A task is a process that may fail. What a process comes to
with nobody else around is `runAlone`.
-/

namespace SolVendor

/-- A process on a shared state. -/
inductive Process (σ α : Type) where
  | done (result : α)
  | step (ready : σ → Bool) (effect : σ → σ) (next : σ → Process σ α)

namespace Process

variable {σ α β : Type}

/-- A process, and after it another one that depends on its result. -/
def bind : Process σ α → (α → Process σ β) → Process σ β
  | done a, f => f a
  | step ready effect next, f => step ready effect fun s => (next s).bind f

instance : Monad (Process σ) where
  pure := done
  bind := bind

/-- A process of one step, for which it is always ready. -/
def atomic (f : σ → α × σ) : Process σ α :=
  step (fun _ => true) (fun s => (f s).2) fun s => done (f s).1

/-- The result of a process that is done. -/
def result? : Process σ α → Option α
  | done a => some a
  | step .. => none

/-- Take all steps, unless the process comes to one that it is not ready for. -/
def runAlone : Process σ α → σ → Option (α × σ)
  | done a, s => some (a, s)
  | step ready effect next, s => if ready s then (next s).runAlone (effect s) else none

@[simp] theorem runAlone_pure (a : α) (s : σ) : runAlone (pure a) s = some (a, s) := rfl

@[simp] theorem runAlone_atomic (f : σ → α × σ) (s : σ) : runAlone (atomic f) s = some (f s) := rfl

/-- Alone, a process goes on where the first part of it ends. -/
theorem runAlone_bind (p : Process σ α) (f : α → Process σ β) (s : σ) :
    runAlone (p >>= f) s = (runAlone p s).bind fun (a, s) => runAlone (f a) s := by
  induction p generalizing s with
  | done a => rfl
  | step ready effect next ih =>
    have hbind : (step ready effect next >>= f) = step ready effect fun s => next s >>= f := rfl
    rw [hbind, runAlone, runAlone]
    split
    · exact ih s (effect s)
    · rfl

end Process

/-- Processes on a shared state. -/
structure Pool (σ α : Type) where
  shared : σ
  processes : List (Process σ α)

namespace Pool

variable {σ α : Type}

/-- A process takes a step, if it is not done and is ready for it. -/
def step (pool : Pool σ α) (i : Nat) : Option (Pool σ α) :=
  match pool.processes[i]? with
  | some (.step ready effect next) =>
    if ready pool.shared then
      some ⟨effect pool.shared, pool.processes.set i (next pool.shared)⟩
    else none
  | _ => none

/-- The processes take steps in the order of a schedule. -/
def run (pool : Pool σ α) : List Nat → Option (Pool σ α)
  | [] => some pool
  | i :: schedule => (pool.step i).bind fun pool => pool.run schedule

/-- The result of a process, if it is done. -/
def result? (pool : Pool σ α) (i : Nat) : Option α :=
  pool.processes[i]?.bind Process.result?

/-- A schedule may be cut anywhere. -/
theorem run_append (pool : Pool σ α) (schedule rest : List Nat) :
    pool.run (schedule ++ rest) = (pool.run schedule).bind fun pool => pool.run rest := by
  induction schedule generalizing pool with
  | nil => rfl
  | cons i schedule ih =>
    rw [List.cons_append, run, run]
    cases pool.step i with
    | none => rfl
    | some pool' => exact ih pool'

theorem run_append_of_run {pool mid last : Pool σ α} {schedule rest : List Nat}
    (h : pool.run schedule = some mid) (h' : mid.run rest = some last) :
    pool.run (schedule ++ rest) = some last := by
  rw [run_append, h, Option.bind_some, h']

/-- **A process that is let alone ends as it does alone**: some steps of it are enough. The other
processes are where they were. -/
theorem exists_run_of_runAlone {pool : Pool σ α} {i : Nat} {p : Process σ α} {a : α} {s : σ}
    (hp : pool.processes[i]? = some p) (h : p.runAlone pool.shared = some (a, s)) :
    ∃ n, pool.run (List.replicate n i) = some ⟨s, pool.processes.set i (.done a)⟩ := by
  induction p generalizing pool with
  | done b =>
    obtain ⟨rfl, rfl⟩ := Prod.mk.inj (Option.some.inj h)
    refine ⟨0, congrArg some ?_⟩
    obtain ⟨hi, hat⟩ := List.getElem?_eq_some_iff.1 hp
    rw [← hat, List.set_getElem_self]
  | step ready effect next ih =>
    rw [Process.runAlone] at h
    split at h
    · rename_i hready
      have hi := (List.getElem?_eq_some_iff.1 hp).1
      let pool' : Pool σ α := ⟨effect pool.shared, pool.processes.set i (next pool.shared)⟩
      have hp' : pool'.processes[i]? = some (next pool.shared) := List.getElem?_set_self hi
      obtain ⟨n, hn⟩ := ih pool.shared hp' h
      refine ⟨n + 1, ?_⟩
      have hstep : pool.step i = some ⟨effect pool.shared, pool.processes.set i (next pool.shared)⟩ := by
        rw [step, hp]
        exact if_pos hready
      rw [List.replicate_succ, run, hstep, Option.bind_some, hn, List.set_set]
    · cases h

end Pool

/-- A process that may fail. -/
abbrev Task (σ : Type) := ExceptT Failure (Process σ)

namespace Task

variable {σ α β : Type}

/-- A task of one step. A failure keeps what the step has changed. -/
def atomic (f : σ → Except Failure α × σ) : Task σ α :=
  Process.atomic f

/-- A step that looks at the state. -/
def observe (f : σ → α) : Task σ α :=
  atomic fun s => (.ok (f s), s)

/-- End with a result that is there already. -/
def ofExcept (r : Except Failure α) : Task σ α :=
  Process.done r

/-- End with the result of another task, as a value even if that is a failure. -/
def attempt (t : Task σ α) : Task σ (Except Failure α) :=
  Process.bind t fun r => .done (.ok r)

/-- Say what was being done, if a task fails. -/
def during (activity : Activity) (t : Task σ α) : Task σ α :=
  Process.bind t fun r => .done (r.mapError fun cause => .during activity cause)

@[simp] theorem runAlone_attempt (t : Task σ α) (s : σ) :
    Process.runAlone (attempt t) s = (Process.runAlone t s).map fun (r, u) => (.ok r, u) := by
  refine (Process.runAlone_bind t _ s).trans ?_
  cases Process.runAlone t s <;> rfl

@[simp] theorem runAlone_during (activity : Activity) (t : Task σ α) (s : σ) :
    Process.runAlone (during activity t) s = (Process.runAlone t s).map fun (r, u) =>
      (r.mapError fun cause => .during activity cause, u) := by
  refine (Process.runAlone_bind t _ s).trans ?_
  cases Process.runAlone t s <;> rfl

/-- Alone, a task goes on where the first part of it has succeeded. -/
theorem runAlone_bind (t : Task σ α) (f : α → Task σ β) (s : σ) :
    Process.runAlone (t >>= f : Task σ β) s = (Process.runAlone t s).bind fun (r, u) =>
      match r with
      | .ok x => Process.runAlone (f x) u
      | .error e => some (.error e, u) := by
  refine (Process.runAlone_bind t _ s).trans ?_
  congr 1
  funext ⟨r, u⟩
  cases r <;> rfl

end Task

end SolVendor
