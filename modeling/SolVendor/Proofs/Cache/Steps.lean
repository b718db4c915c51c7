import SolVendor.Cache.Concurrent
import SolVendor.Proofs.Cache.Delivery
/-!
# Cache — a thread that nobody disturbs

Taken step by step, what a thread does is what the storage does in one go,
as long as the others let it. The steps of a task follow an action if that
is so on every host (`Task.Follows`), and that composes as tasks do. So a
thread that fetches a dependency alone, with the lock free, ends as
`Storage.fetch` does, and gives the lock back (`runAlone_fetchEach`); and
one that asks for it by its text ends as `Storage.getDependency` does
(`runAlone_getEach`).
-/

namespace SolVendor

/-- The host is another one, and something has happened. -/
def Shared.become (σ : Shared) (host : Host) (happened : List Event) : Shared :=
  { σ with host, events := σ.events ++ happened }

theorem Shared.host_become (σ : Shared) (host : Host) (happened : List Event) :
    (σ.become host happened).host = host := rfl

theorem Shared.become_nil (σ : Shared) : σ.become σ.host [] = σ := by
  unfold Shared.become
  rw [List.append_nil]

variable {α β : Type}

/-- What the task comes to alone: the result of the action, and the host that it leaves. -/
def Task.EndsAs (t : Task Shared α) (a : Action α) (σ : Shared) : Prop :=
  ∃ happened, Process.runAlone t σ =
    some ((Action.run a σ.host).1, σ.become (Action.run a σ.host).2 happened)

/-- Alone, the task does what the action does in one go. -/
def Task.Follows (t : Task Shared α) (a : Action α) : Prop :=
  ∀ σ, t.EndsAs a σ

section

variable {t : Task Shared α} {a b : Action α} {f : α → Task Shared β} {k : α → Action β}

/-- **One task after another** ends as one action after another. -/
theorem Task.EndsAs.bind {σ : Shared} (h : t.EndsAs a σ)
    (hf : ∀ {x g} l, Action.run a σ.host = (.ok x, g) → (f x).EndsAs (k x) (σ.become g l)) :
    (t >>= f).EndsAs (a >>= k) σ := by
  obtain ⟨l, hl⟩ := h
  unfold Task.EndsAs
  rw [Task.runAlone_bind, hl, Option.bind_some, Action.run_bind]
  rcases hrun : Action.run a σ.host with ⟨e | x, g⟩
  · exact ⟨l, rfl⟩
  · obtain ⟨m, hm⟩ := hf l hrun
    refine ⟨l ++ m, ?_⟩
    have hhost := σ.host_become g l
    simp only
    rw [hm, hhost]
    unfold Shared.become
    rw [List.append_assoc]

namespace Task.Follows

theorem congr (h : t.Follows a) (hab : ∀ h, Action.run a h = Action.run b h) : t.Follows b := by
  intro σ
  obtain ⟨l, hl⟩ := h σ
  exact ⟨l, by rw [hl, hab]⟩

theorem act (a : Action α) (happened : Except Failure α → List Event) :
    (Storage.act a happened).Follows a :=
  fun _ => ⟨_, rfl⟩

theorem pure (x : α) : (Pure.pure x : Task Shared α).Follows (Pure.pure x) :=
  fun σ => ⟨[], congrArg (fun τ => some (Except.ok x, τ)) σ.become_nil.symm⟩

theorem throw (e : Failure) : (MonadExcept.throw e : Task Shared α).Follows (MonadExcept.throw e) :=
  fun σ => ⟨[], congrArg (fun τ => some (Except.error e, τ)) σ.become_nil.symm⟩

theorem bind (h : t.Follows a) (hf : ∀ x, (f x).Follows (k x)) : (t >>= f).Follows (a >>= k) :=
  fun σ => (h σ).bind fun _ _ => hf _ _

theorem attempt (h : t.Follows a) : (Task.attempt t).Follows (Action.attempt a) := by
  intro σ
  obtain ⟨l, hl⟩ := h σ
  refine ⟨l, ?_⟩
  refine (Process.runAlone_bind t _ σ).trans ?_
  rw [hl]
  rfl

theorem ite {c : Prop} [Decidable c] {t' : Task Shared α} (h : t.Follows a) (h' : t'.Follows b) :
    (if c then t else t').Follows (if c then a else b) := by
  split
  · exact h
  · exact h'

end Task.Follows

end

namespace Storage

variable {s : Storage} {fetcher : Fetcher} {d : Dependency} {t : Nat} {σ : Shared}

/-! ## The stages -/

theorem follows_clear (t : Nat) (s : Storage) (d : Dependency) : (clear t s d).Follows (s.sweep d) := by
  unfold clear
  refine ((Task.Follows.act (Action.observe (·.pathExists (s.stagingPath d))) _).bind fun found =>
    Task.Follows.ite (c := found = true) (Task.Follows.act (Action.during (.removeTree (s.stagingPath d))
      (Action.change fun fs cwd => fs.removeTree cwd (s.stagingPath d))) _) (.pure PUnit.unit)).congr ?_
  intro h
  unfold sweep Action.removeTree
  simp only [Action.run_bind, Action.run_observe, Action.run_during]
  split
  · simp only [Action.run_during]
  · rfl

theorem follows_writeEach (strict : Bool) (ws : List (Path × Entry)) :
    (writeEach strict ws).Follows (Delivery.write strict ws) := by
  induction ws with
  | nil => exact .pure ()
  | cons w ws ih =>
    obtain ⟨p, e⟩ := w
    unfold writeEach Delivery.write
    refine Task.Follows.ite ?_ ?_
    · exact (Task.Follows.act _ _).bind fun _ => ih
    · exact (Task.Follows.act _ _).bind fun _ => ih

theorem follows_callEach (t : Nat) (s : Storage) (fetcher : Fetcher) (d : Dependency) :
    (callEach t s fetcher d).Follows (s.call fetcher d) := by
  have hbegin : (begin t s d).Follows (do
      let calls ← Action.observe s.callCount
      modify fun h => { h with fetches := h.fetches ++ [FetchCall.mk s.handle d (s.stagingPath d)] }
      return calls) := Task.Follows.act _ _
  have hend : ∀ calls, (do
      let written ← Task.attempt (writeEach (fetcher calls d (s.stagingPath d)).strict
        ((fetcher calls d (s.stagingPath d)).writes (s.stagingPath d)))
      act (pure ((fetcher calls d (s.stagingPath d)).endingOf written)) fun _ =>
        [.ended t ((fetcher calls d (s.stagingPath d)).endingOf written)] : Task Shared Ending).Follows
      ((fetcher calls d (s.stagingPath d)).run (s.stagingPath d)) := by
    intro calls
    refine ((follows_writeEach _ _).attempt.bind fun written => Task.Follows.act _ _).congr fun h => ?_
    rw [Delivery.run_eq, Action.run_bind, Action.run_attempt]
    rfl
  unfold callEach
  refine (hbegin.bind hend).congr fun h => ?_
  unfold call
  simp only [Action.run_bind, Action.run_observe, Action.run_modify, Action.run_pure]

theorem follows_discardEach (t : Nat) (s : Storage) (d : Dependency) :
    (discardEach t s d).Follows (s.discard d) := by
  unfold discardEach
  refine ((Task.Follows.act (Action.observe (·.pathExists (s.stagingPath d))) _).bind fun found =>
    Task.Follows.ite (c := found = true) ((Task.Follows.act (Action.attempt (Action.change fun fs cwd =>
      fs.removeTree cwd (s.stagingPath d))) _).bind fun _ => .pure PUnit.unit) (.pure PUnit.unit)).congr ?_
  intro h
  unfold discard Action.removeTree
  simp only [Action.run_bind, Action.run_observe, Action.run_attempt]
  split
  · simp only [Action.run_bind, Action.run_attempt]
  · rfl

/-! ## A whole fetch -/

/-- What a fetch does when it has the lock. -/
def fetchFree (s : Storage) (fetcher : Fetcher) (d : Dependency) : Action Path := do
  let tree := s.treePath d
  if ← Action.observe (·.isDir tree) then return tree
  s.prepare d
  s.sweep d
  match ← s.call fetcher d with
  | .done =>
    s.place d
    return tree
  | .failed cause =>
    s.discard d
    throw (.during (.fetch d) cause)
  | .crashed =>
    s.poison d
    throw .crashed

theorem run_fetch (h : Host) : Action.run (s.fetch fetcher d) h =
    if s.isPoisoned d h then (.error (.lockPoisoned d), h) else Action.run (s.fetchFree fetcher d) h := by
  unfold fetch fetchFree
  rw [Action.run_bind, Action.run_observe]
  simp only
  split
  · rfl
  · rfl

theorem follows_fetchLocked (t : Nat) (s : Storage) (fetcher : Fetcher) (d : Dependency) :
    (fetchLocked t s fetcher d).Follows (s.fetchFree fetcher d) := by
  unfold fetchLocked fetchFree
  refine (Task.Follows.act _ _).bind fun found => Task.Follows.ite (.pure _) ?_
  refine (Task.Follows.act _ _).bind fun _ => (follows_clear t s d).bind fun _ =>
    (follows_callEach t s fetcher d).bind fun ending => ?_
  cases ending with
  | done => exact (Task.Follows.act _ _).bind fun _ => .pure _
  | failed cause => exact (follows_discardEach t s d).bind fun _ => .throw _
  | crashed => exact (Task.Follows.act _ _).bind fun _ => .throw _

/-- **A thread that fetches alone does what the storage does in one go**, if the lock is free, and gives
the lock back. -/
theorem runAlone_fetchEach (hfree : σ.isFree s d = true) (hguards : ∀ g ∈ σ.guards, g.thread ≠ t) :
    (fetchEach t s fetcher d).EndsAs (s.fetch fetcher d) σ := by
  unfold Task.EndsAs
  rw [run_fetch]
  unfold fetchEach
  have hacquire : Process.runAlone (acquire t s d) σ =
      some (if s.isPoisoned d σ.host then .error (.lockPoisoned d) else .ok (),
        ⟨σ.host, if s.isPoisoned d σ.host then σ.guards else ⟨t, s.handle, d⟩ :: σ.guards,
          σ.events ++ [.acquired t (s.isPoisoned d σ.host)]⟩) := by
    unfold acquire
    rw [Process.runAlone, if_pos hfree]
    rfl
  rw [Task.runAlone_bind, hacquire, Option.bind_some]
  cases s.isPoisoned d σ.host with
  | true => exact ⟨[.acquired t true], rfl⟩
  | false =>
    simp only [Bool.false_eq_true, if_false]
    obtain ⟨l, hl⟩ := (follows_fetchLocked t s fetcher d).attempt
      ⟨σ.host, ⟨t, s.handle, d⟩ :: σ.guards, σ.events ++ [.acquired t false]⟩
    rw [Task.runAlone_bind, hl, Option.bind_some, Action.run_attempt]
    simp only
    -- The lock is given back, and the result is what the turn has come to.
    have hfilter : (⟨t, s.handle, d⟩ :: σ.guards).filter (fun g => g.thread ≠ t) = σ.guards := by
      rw [List.filter_cons_of_neg (by simp), List.filter_eq_self]
      simpa using hguards
    refine ⟨[.acquired t false] ++ l ++ [.released t], ?_⟩
    show some (_, (⟨_, (⟨t, s.handle, d⟩ :: σ.guards).filter (fun g => g.thread ≠ t), _⟩ : Shared)) = _
    rw [hfilter]
    unfold Shared.become
    simp only [List.append_assoc]

/-- **A thread that asks for the dependency alone**, too. -/
theorem runAlone_getEach {text : String} (hd : Dependency.parse text = .ok d)
    (hfree : σ.isFree s d = true) (hguards : ∀ g ∈ σ.guards, g.thread ≠ t) :
    (getEach t s fetcher text).EndsAs (s.getDependency fetcher text) σ := by
  unfold getEach getDependency
  rw [hd]
  have hparsed : (Task.ofExcept (.ok d) : Task Shared Dependency).EndsAs (Action.ofExcept (.ok d)) σ :=
    Task.Follows.pure d σ
  refine hparsed.bind fun {e g} l hrun => ?_
  obtain ⟨he, rfl⟩ := Prod.mk.inj hrun
  obtain rfl := Except.ok.inj he
  refine (Task.Follows.act (Action.observe (s.isCached d)) _ _).bind fun {cached g} m hrun => ?_
  obtain ⟨-, rfl⟩ := Prod.mk.inj hrun
  -- The locks are as they were.
  have hfetch : (fetchEach t s fetcher d).EndsAs (s.fetch fetcher d)
      ((σ.become σ.host l).become σ.host m) := runAlone_fetchEach hfree hguards
  split
  · exact Task.Follows.pure _ _
  · exact hfetch.bind fun l _ => Task.Follows.pure _ _

end Storage

/-- What is asked for, in one go. -/
def Request.action (fetcher : Fetcher) : Request → Action (Dependency × Path)
  | fetch s d => do return (d, ← s.fetch fetcher d)
  | get s text => s.getDependency fetcher text

/-- **A thread that is let alone** when no lock is taken does what it is asked for as in one go. -/
theorem Request.endsAs_process (request : Request) {fetcher : Fetcher} {t : Nat} {σ : Shared}
    (hguards : σ.guards = []) : (request.process fetcher t).EndsAs (request.action fetcher) σ := by
  have hfree : ∀ s d, σ.isFree s d = true := by
    intro s d
    unfold Shared.isFree
    rw [hguards]
    rfl
  have hnone : ∀ g ∈ σ.guards, g.thread ≠ t := by
    rw [hguards]
    exact fun g hg => absurd hg List.not_mem_nil
  cases request with
  | fetch s d =>
    exact (Storage.runAlone_fetchEach (hfree s d) hnone).bind fun l _ => Task.Follows.pure _ _
  | get s text =>
    cases hparse : Dependency.parse text with
    | ok d => exact Storage.runAlone_getEach hparse (hfree s d) hnone
    | error e =>
      show (Storage.getEach t s fetcher text).EndsAs (s.getDependency fetcher text) σ
      unfold Storage.getEach Storage.getDependency
      rw [hparse]
      exact ⟨[], congrArg (fun τ => some (Except.error e, τ)) σ.become_nil.symm⟩

end SolVendor
