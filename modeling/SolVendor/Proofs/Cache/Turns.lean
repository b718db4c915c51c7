import SolVendor.Proofs.Cache.History
import SolVendor.Proofs.Cache.Stages
import SolVendor.Proofs.Cache.Steps
import SolVendor.Proofs.Concurrency.RelyGuarantee
/-!
# Cache — turns with a dependency

Threads that fetch one dependency through one storage take turns. Between
two turns the tree is unfetched, or it is there as it was written, or a
call has crashed and the lock is poisoned (`IsOrderly`). A thread relies on
no more than that the others take turns (`contract`). While it has the lock
it finds nothing changed by them (`IsAt.eq_of_rely`), so its turn goes step
by step as it would alone: it leaves the tree unfetched, or there, or it
has crashed (`IsAt.safe_fetchLocked`).
-/

namespace SolVendor

open FileSystem

namespace Storage

variable {s : Storage} {fetcher : Fetcher} {d : Dependency} {σ τ : Shared} {t : Nat} {φ ψ : Phase}
  {g : Host} {α β : Type}

/-! ## Taking turns -/

/-- What the host is like in a phase. What only counts for the next turn has to be so when the lock is
given back. -/
def Fits (s : Storage) (fetcher : Fetcher) (d : Dependency) (σ : Shared) : Phase → Prop
  | .idle => s.isCached d σ.host = false ∧ (σ.guards = [] → s.IsUnfetched d σ.host)
  | .calling t => s.isCached d σ.host = false ∧ σ.guards = [⟨t, s.handle, d⟩]
  | .moved => s.HoldsWritten fetcher d σ.host
  | .crashed => s.isCached d σ.host = false ∧ (σ.guards = [] → s.isPoisoned d σ.host = true)

/-- One thread has the lock at most, and the host is as it has to be after what has happened. -/
structure IsOrderly (s : Storage) (fetcher : Fetcher) (d : Dependency) (σ : Shared) : Prop where
  guards : σ.guards = [] ∨ ∃ t, σ.guards = [⟨t, s.handle, d⟩]
  phase : ∃ φ, Phase.idle.after? σ.events = some φ ∧ s.Fits fetcher d σ φ

/-- What a thread guarantees: it takes turns with the others, and changes no file once the tree is there
or a call has crashed. -/
structure Guarantees (s : Storage) (fetcher : Fetcher) (d : Dependency) (t : Nat) (σ τ : Shared) :
    Prop where
  orderly : s.IsOrderly fetcher d σ → s.IsOrderly fetcher d τ
  excluded : ∀ {u}, u ≠ t → σ.guards = [⟨u, s.handle, d⟩] → τ = σ
  events : ∃ more, τ.events = σ.events ++ more ∧ ∀ e ∈ more, e.thread = t
  settled : Phase.idle.after? σ.events = some .moved ∨ Phase.idle.after? σ.events = some .crashed →
    τ.host.files = σ.host.files ∧ τ.host.cwd = σ.host.cwd

/-- A thread relies on what the others guarantee. Once it has found the lock poisoned it is done. -/
def contract (s : Storage) (fetcher : Fetcher) (d : Dependency) (t : Nat) : Contract Shared where
  rely := Relation.ReflTransGen fun σ τ => ∃ u, u ≠ t ∧ s.Guarantees fetcher d u σ τ
  guar := s.Guarantees fetcher d t
  live σ := .acquired t true ∉ σ.events
  refl _ := .refl
  trans := .trans

/-- Nothing has happened, and nothing needs to. -/
theorem Guarantees.refl (σ : Shared) : s.Guarantees fetcher d t σ σ where
  orderly := id
  excluded _ _ := rfl
  events := ⟨[], (List.append_nil _).symm, fun _ he => absurd he List.not_mem_nil⟩
  settled _ := ⟨rfl, rfl⟩

section Rely

variable (hr : (s.contract fetcher d t).rely σ τ)

include hr

theorem isOrderly_of_rely (ho : s.IsOrderly fetcher d σ) : s.IsOrderly fetcher d τ := by
  induction hr with
  | refl => exact ho
  | tail _ hstep ih =>
    obtain ⟨u, -, hg⟩ := hstep
    exact hg.orderly ih

/-- The others record only what they have done themselves. -/
theorem events_of_rely : ∃ more, τ.events = σ.events ++ more ∧ ∀ e ∈ more, e.thread ≠ t := by
  induction hr with
  | refl => exact ⟨[], (List.append_nil _).symm, fun _ he => absurd he List.not_mem_nil⟩
  | tail _ hstep ih =>
    obtain ⟨u, hne, hg⟩ := hstep
    obtain ⟨more, hmore, hown⟩ := ih
    obtain ⟨new, hnew, hown'⟩ := hg.events
    refine ⟨more ++ new, by rw [hnew, hmore, List.append_assoc], fun e he => ?_⟩
    rcases List.mem_append.1 he with he | he
    · exact hown e he
    · rw [hown' e he]
      exact hne

theorem mem_events_of_rely {e : Event} (he : e.thread = t) : e ∈ τ.events ↔ e ∈ σ.events := by
  obtain ⟨more, hmore, hown⟩ := events_of_rely hr
  rw [hmore, List.mem_append]
  constructor
  · rintro (hold | hnew)
    · exact hold
    · exact absurd he (hown e hnew)
  · exact .inl

/-- The tree stays where it has been moved. -/
theorem moved_of_rely (ho : s.IsOrderly fetcher d σ)
    (hmoved : Phase.idle.after? σ.events = some .moved) :
    Phase.idle.after? τ.events = some .moved := by
  obtain ⟨φ, hφ, -⟩ := (isOrderly_of_rely hr ho).phase
  obtain ⟨more, hmore, -⟩ := events_of_rely hr
  rw [hmore, Phase.after?_append, hmoved] at hφ
  rw [hmore, Phase.after?_append, hmoved]
  obtain ⟨rfl, -⟩ := Phase.after?_moved hφ
  exact hφ

end Rely

/-! ## The turn of a thread -/

/-- The thread has the lock in a phase. -/
structure IsAt (s : Storage) (fetcher : Fetcher) (d : Dependency) (t : Nat) (φ : Phase) (σ : Shared) :
    Prop where
  guards : σ.guards = [⟨t, s.handle, d⟩]
  phase : Phase.idle.after? σ.events = some φ
  live : .acquired t true ∉ σ.events
  fits : s.Fits fetcher d σ φ

theorem IsAt.isOrderly (hat : s.IsAt fetcher d t φ σ) : s.IsOrderly fetcher d σ :=
  ⟨.inr ⟨t, hat.guards⟩, φ, hat.phase, hat.fits⟩

/-- **A thread that has the lock finds everything as it has left it.** -/
theorem IsAt.eq_of_rely (hat : s.IsAt fetcher d t φ σ) (hr : (s.contract fetcher d t).rely σ τ) :
    τ = σ := by
  induction hr with
  | refl => rfl
  | tail _ hstep ih =>
    obtain ⟨u, hne, hg⟩ := hstep
    rw [ih] at hg
    exact hg.excluded (Ne.symm hne) hat.guards

/-- **A step of the turn.** It runs on what the thread has left, and leads to another phase. -/
theorem IsAt.safe_act {a : Action α} {happened : Except Failure α → List Event}
    {post : Except Failure α → Shared → Prop} {r : Except Failure α} {l : List Event}
    (hat : s.IsAt fetcher d t φ σ) (hrun : Action.run a σ.host = (r, g)) (hes : happened r = l)
    (hown : ∀ e ∈ l, e.thread = t ∧ e ≠ .acquired t true) (hψ : φ.after? l = some ψ)
    (hsettled : φ = .moved ∨ φ = .crashed → g.files = σ.host.files ∧ g.cwd = σ.host.cwd)
    (hfits : s.Fits fetcher d (σ.become g l) ψ)
    (hpost : s.IsAt fetcher d t ψ (σ.become g l) → post r (σ.become g l)) :
    (act a happened).Safe (s.contract fetcher d t) post σ := by
  have hstep : Shared.act a happened σ = (r, σ.become g l) := by
    unfold Shared.act
    rw [hrun, ← hes]
    rfl
  have hlive : .acquired t true ∉ σ.events ++ l := by
    rw [List.mem_append]
    rintro (hold | hnew)
    · exact hat.live hold
    · exact (hown _ hnew).2 rfl
  have hphase : Phase.idle.after? (σ.events ++ l) = some ψ := by
    rw [Phase.after?_append, hat.phase]
    exact hψ
  have hat' : s.IsAt fetcher d t ψ (σ.become g l) := ⟨hat.guards, hphase, hlive, hfits⟩
  refine Process.safe_atomic fun τ hτ => ?_
  obtain rfl := hat.eq_of_rely hτ
  rw [hstep]
  refine ⟨hat.live, ⟨fun _ => hat'.isOrderly, fun {u} hne hu => ?_, ⟨l, rfl, fun e he => (hown e he).1⟩,
    fun hsettle => ?_⟩, fun υ hυ => ?_⟩
  · rw [hat.guards] at hu
    cases hu
    exact absurd rfl hne
  · rw [hat.phase] at hsettle
    exact hsettled (hsettle.imp Option.some.inj Option.some.inj)
  · rw [hat'.eq_of_rely hυ]
    exact hpost hat'

/-- While a thread has the lock, an idle host is one on which the tree is not cached. -/
theorem IsAt.fits_idle {l : List Event} (hat : s.IsAt fetcher d t φ σ)
    (hcached : s.isCached d g = false) : s.Fits fetcher d (σ.become g l) .idle := by
  refine ⟨hcached, fun hfree => ?_⟩
  have hfree : σ.guards = [] := hfree
  rw [hat.guards] at hfree
  cases hfree

/-- What a step has come to is so until the next one. -/
theorem IsAt.safe_done {r : Except Failure α} {post : Except Failure α → Shared → Prop}
    (hat : s.IsAt fetcher d t φ σ) (hpost : post r σ) :
    ∀ τ, (s.contract fetcher d t).rely σ τ → post r τ := by
  intro τ hτ
  rw [hat.eq_of_rely hτ]
  exact hpost

theorem IsAt.safe_pure {x : α} {post : Except Failure α → Shared → Prop}
    (hat : s.IsAt fetcher d t φ σ) (hpost : post (.ok x) σ) :
    (pure x : Task Shared α).Safe (s.contract fetcher d t) post σ :=
  hat.safe_done hpost

theorem IsAt.safe_throw {e : Failure} {post : Except Failure α → Shared → Prop}
    (hat : s.IsAt fetcher d t φ σ) (hpost : post (.error e) σ) :
    (throw e : Task Shared α).Safe (s.contract fetcher d t) post σ :=
  hat.safe_done hpost

/-- **The staging path is cleared**, or what is left there cannot be removed. -/
theorem IsAt.safe_clear (hat : s.IsAt fetcher d t .idle σ) (hd : d.IsAccepted)
    (hu : s.IsUnfetched d σ.host) (hh : ∃ dir, s.Houses d dir σ.host) :
    (clear t s d).Safe (s.contract fetcher d t) (fun r τ => s.IsAt fetcher d t .idle τ ∧
      s.IsUnfetched d τ.host ∧ (r = .ok () → s.IsCleared d τ.host)) σ := by
  have hcached := hu.not_isCached hd
  unfold clear
  cases hfound : σ.host.pathExists (s.stagingPath d) with
  | false =>
    refine Task.Safe.andThen (hat.safe_act (r := .ok false) (g := σ.host) (l := [.cleared t])
      (congrArg (fun b => (Except.ok b, σ.host)) hfound) rfl (by simp [Event.thread]) rfl (by simp)
      (hat.fits_idle hcached) fun hat' => ?_)
    exact hat'.safe_pure ⟨hat', hu, fun _ => ⟨hu, hh, hu.isVacant hfound⟩⟩
  | true =>
    refine Task.Safe.andThen (hat.safe_act (r := .ok true) (g := σ.host) (l := [])
      (congrArg (fun b => (Except.ok b, σ.host)) hfound) rfl (by simp) rfl (by simp)
      (hat.fits_idle hcached) fun hat' => ?_)
    simp only [if_true]
    cases hrm : σ.host.files.removeTree σ.host.cwd (s.stagingPath d) with
    | error e =>
      refine hat'.safe_act (r := .error (.during (.removeTree (s.stagingPath d)) (.file e)))
        (g := σ.host) (l := []) ?_ rfl (by simp) rfl (by simp) (hat'.fits_idle hcached)
        fun hat'' => ⟨hat'', hu, fun hok => by cases hok⟩
      have hhost : (σ.become σ.host []).host = σ.host := rfl
      rw [hhost, Action.run_during, Action.run_change, hrm]
      rfl
    | ok files =>
      obtain ⟨hu', hvacant, dir, -, hh'⟩ := hu.remove hd hrm
      refine hat'.safe_act (r := .ok ()) (g := σ.host.withFiles files) (l := [.removed t, .cleared t])
        ?_ rfl (by simp [Event.thread]) rfl (by simp) (hat'.fits_idle (hu'.not_isCached hd))
        fun hat'' => ⟨hat'', hu', fun _ => ⟨hu', ⟨dir, hh'⟩, hvacant⟩⟩
      have hhost : (σ.become σ.host []).host = σ.host := rfl
      rw [hhost, Action.run_during, Action.run_change, hrm]
      rfl

/-- **Entries are written one by one**, as they are in one go. The tree is not cached after any of them. -/
theorem IsAt.safe_writeEach {strict : Bool} {ws rest : List (Path × Entry)} {base : Host}
    (hcached : ∀ n, s.isCached d (Action.run (Delivery.write strict ((ws ++ rest).take n)) base).2 = false)
    (hat : s.IsAt fetcher d t (.calling t) σ)
    (hrun : Action.run (Delivery.write strict ws) base = (.ok (), σ.host)) :
    (writeEach strict rest).Safe (s.contract fetcher d t) (fun r τ =>
      s.IsAt fetcher d t (.calling t) τ ∧
        Action.run (Delivery.write strict (ws ++ rest)) base = (r, τ.host)) σ := by
  induction rest generalizing ws σ with
  | nil =>
    rw [List.append_nil]
    exact hat.safe_pure ⟨hat, hrun⟩
  | cons w rest ih =>
    obtain ⟨p, e⟩ := w
    rw [List.append_cons] at hcached ⊢
    -- What one more entry leaves.
    have hone : ∀ {r : Except Failure Unit} {g : Host}, Action.run (Delivery.write strict [(p, e)]) σ.host =
        (r, g) → Action.run (Delivery.write strict (ws ++ [(p, e)])) base = (r, g) ∧
          s.isCached d g = false := by
      intro r g hg
      have hws : Action.run (Delivery.write strict (ws ++ [(p, e)])) base = (r, g) := by
        rw [Delivery.run_write_append, hrun]
        exact hg
      have hn := hcached (ws.length + 1)
      rw [List.take_left' (by simp), hws] at hn
      exact ⟨hws, hn⟩
    have hfits : ∀ {g : Host} {l : List Event}, s.isCached d g = false →
        s.Fits fetcher d (σ.become g l) (.calling t) := fun hg => ⟨hg, hat.guards⟩
    unfold writeEach
    cases strict with
    | true =>
      rw [if_pos rfl]
      rcases hplant : Action.run (Action.plant p e) σ.host with ⟨cause | u, g⟩
      · obtain ⟨hws, hg⟩ := hone (r := .error cause) (g := g)
          (by rw [Delivery.write, if_pos rfl, Action.run_bind, hplant])
        refine Task.Safe.andThen (hat.safe_act hplant rfl (by simp) rfl (by simp) (hfits hg)
          fun hat' τ hτ => ?_)
        rw [hat'.eq_of_rely hτ, Delivery.run_write_append, hws]
        exact ⟨hat', rfl⟩
      · obtain ⟨hws, hg⟩ := hone (r := .ok ()) (g := g)
          (by rw [Delivery.write, if_pos rfl, Action.run_bind, hplant]; rfl)
        exact Task.Safe.andThen (hat.safe_act hplant rfl (by simp) rfl (by simp) (hfits hg) fun hat' =>
          ih hcached hat' hws)
    | false =>
      rw [if_neg Bool.false_ne_true]
      have hplant : Action.run (Action.attempt (Action.plant p e)) σ.host =
          (.ok (Action.run (Action.plant p e) σ.host).1, (Action.run (Action.plant p e) σ.host).2) := rfl
      obtain ⟨hws, hg⟩ := hone (r := .ok ())
        (by rw [Delivery.write, if_neg Bool.false_ne_true, Action.run_bind, hplant]; rfl)
      exact Task.Safe.andThen (hat.safe_act hplant rfl (by simp) rfl (by simp) (hfits hg) fun hat' =>
        ih hcached hat' hws)

/-- **A call of the fetcher**, entry by entry, comes to what it comes to in one go. -/
theorem IsAt.safe_callEach (hat : s.IsAt fetcher d t .idle σ) (hd : d.IsAccepted)
    (hf : fetcher.IsConfinedThroughout) (hc : s.IsCleared d σ.host) :
    (callEach t s fetcher d).Safe (s.contract fetcher d t) (fun r τ => ∃ ending, r = .ok ending ∧
      Action.run (s.call fetcher d) σ.host = (.ok ending, τ.host) ∧ s.IsStaged d σ.host τ.host ∧
      s.IsAt fetcher d t (if ending = .crashed then .crashed else .idle) τ) σ := by
  have hcached := hc.isUnfetched.not_isCached hd
  let base : Host :=
    { σ.host with fetches := σ.host.fetches ++ [FetchCall.mk s.handle d (s.stagingPath d)] }
  let delivery := fetcher (s.callCount σ.host) d (s.stagingPath d)
  have hbase : s.IsCleared d base := hc.congr rfl rfl
  have hstaged : ∀ n, s.IsStaged d base (Action.run (Delivery.write delivery.strict
      ((delivery.writes (s.stagingPath d)).take n)) base).2 :=
    hbase.isStaged hd hf (s.callCount σ.host)
  have hcalm : ∀ n, s.isCached d (Action.run (Delivery.write delivery.strict
      (([] ++ delivery.writes (s.stagingPath d)).take n)) base).2 = false :=
    fun n => ((hstaged n).isUnfetched hbase hd).not_isCached hd
  have hcall : Action.run (s.call fetcher d) σ.host = Action.run (delivery.run (s.stagingPath d)) base :=
    rfl
  unfold callEach
  refine Task.Safe.andThen (hat.safe_act (r := .ok (s.callCount σ.host)) (g := base) (l := [.started t])
    rfl rfl (by simp [Event.thread]) rfl (by simp) ⟨hcached, hat.guards⟩ fun hat' => ?_)
  refine Task.Safe.andThen (Task.Safe.attempt (Process.Safe.mono (hat'.safe_writeEach hcalm rfl)
    fun written τ hw => ?_))
  obtain ⟨hat'', hwritten⟩ := hw
  rw [List.nil_append] at hwritten
  have hlast := hstaged (delivery.writes (s.stagingPath d)).length
  rw [List.take_length, hwritten] at hlast
  intro υ hυ
  rw [hat''.eq_of_rely hυ]
  have hfits : ∀ {l : List Event}, s.Fits fetcher d (τ.become τ.host l)
      (if delivery.endingOf written = .crashed then .crashed else .idle) := by
    intro l
    split
    · refine ⟨(hlast.isUnfetched hbase hd).not_isCached hd, fun hfree => ?_⟩
      have hfree : τ.guards = [] := hfree
      rw [hat''.guards] at hfree
      cases hfree
    · exact hat''.fits_idle ((hlast.isUnfetched hbase hd).not_isCached hd)
  refine hat''.safe_act (r := .ok (delivery.endingOf written)) (g := τ.host)
    (l := [.ended t (delivery.endingOf written)]) rfl rfl (by simp [Event.thread]) ?_ (by simp) hfits
    fun hat₃ => ⟨_, rfl, ?_, ?_, hat₃⟩
  · rw [Phase.after?_singleton, Phase.next, if_pos rfl]
  · rw [hcall, Delivery.run_eq, hwritten]
    rfl
  · exact ⟨⟨hlast.keeps.cwd, hlast.keeps.files⟩, hlast.inside, hlast.destination⟩

/-- What a failed call has written is removed, as far as that can be done. -/
theorem IsAt.safe_discardEach (hat : s.IsAt fetcher d t .idle σ) (hd : d.IsAccepted)
    (hu : s.IsUnfetched d σ.host) :
    (discardEach t s d).Safe (s.contract fetcher d t) (fun r τ => r = .ok () ∧
      s.IsAt fetcher d t .idle τ ∧ s.IsUnfetched d τ.host) σ := by
  have hcached := hu.not_isCached hd
  unfold discardEach
  cases hfound : σ.host.pathExists (s.stagingPath d) with
  | false =>
    exact Task.Safe.andThen (hat.safe_act (r := .ok false) (g := σ.host) (l := [])
      (congrArg (fun b => (Except.ok b, σ.host)) hfound) rfl (by simp) rfl (by simp)
      (hat.fits_idle hcached) fun hat' => hat'.safe_pure ⟨rfl, hat', hu⟩)
  | true =>
    refine Task.Safe.andThen (hat.safe_act (r := .ok true) (g := σ.host) (l := [])
      (congrArg (fun b => (Except.ok b, σ.host)) hfound) rfl (by simp) rfl (by simp)
      (hat.fits_idle hcached) fun hat' => ?_)
    simp only [if_true]
    have hhost : (σ.become σ.host []).host = σ.host := rfl
    cases hrm : σ.host.files.removeTree σ.host.cwd (s.stagingPath d) with
    | error e =>
      refine Task.Safe.andThen (hat'.safe_act (r := .ok (.error (.file e))) (g := σ.host) (l := []) ?_ rfl
        (by simp) rfl (by simp) (hat'.fits_idle hcached) fun hat'' => ?_)
      · rw [hhost, Action.run_attempt, Action.run_change, hrm]
      · exact hat''.safe_pure ⟨rfl, hat'', hu⟩
    | ok files =>
      obtain ⟨hu', -⟩ := hu.remove hd hrm
      refine Task.Safe.andThen (hat'.safe_act (r := .ok (.ok ())) (g := σ.host.withFiles files)
        (l := [.removed t]) ?_ rfl (by simp [Event.thread]) rfl (by simp)
        (hat'.fits_idle (hu'.not_isCached hd)) fun hat'' => ?_)
      · rw [hhost, Action.run_attempt, Action.run_change, hrm]
      · exact hat''.safe_pure ⟨rfl, hat'', hu'⟩

/-- What the host is like in a phase when the lock is given back. -/
def Rests (s : Storage) (fetcher : Fetcher) (d : Dependency) (h : Host) : Phase → Prop
  | .idle => s.IsUnfetched d h
  | .calling _ => False
  | .moved => s.HoldsWritten fetcher d h
  | .crashed => s.isCached d h = false ∧ s.isPoisoned d h = true

theorem Rests.fits {h : Host} (hrests : s.Rests fetcher d h φ) (hd : d.IsAccepted)
    (hhost : σ.host = h) : s.Fits fetcher d σ φ := by
  subst hhost
  cases φ with
  | idle => exact ⟨IsUnfetched.not_isCached hrests hd, fun _ => hrests⟩
  | calling t => exact hrests.elim
  | moved => exact hrests
  | crashed => exact ⟨hrests.1, fun _ => hrests.2⟩

/-- What a turn has come to: the lock can be given back, and the tree is there if it has not failed. -/
def LeavesOff (s : Storage) (fetcher : Fetcher) (d : Dependency) (t : Nat) (r : Except Failure Path)
    (σ : Shared) : Prop :=
  ∃ φ, s.IsAt fetcher d t φ σ ∧ s.Rests fetcher d σ.host φ ∧
    ∀ path, r = .ok path → path = s.treePath d ∧ φ = .moved

/-- **The turn of a thread that finds the tree unfetched.** -/
theorem IsAt.safe_fetchLocked (hat : s.IsAt fetcher d t .idle σ) (hd : d.IsAccepted)
    (hf : fetcher.IsConfinedThroughout) (hu : s.IsUnfetched d σ.host) :
    (fetchLocked t s fetcher d).Safe (s.contract fetcher d t) (s.LeavesOff fetcher d t) σ := by
  have hcached := hu.not_isCached hd
  have hdir : σ.host.isDir (s.treePath d) = false := hcached
  have hfailed : ∀ {e : Failure} {τ : Shared}, s.IsAt fetcher d t .idle τ → s.IsUnfetched d τ.host →
      s.LeavesOff fetcher d t (.error e) τ :=
    fun hat hu => ⟨.idle, hat, hu, fun path hok => by cases hok⟩
  unfold fetchLocked
  refine Task.Safe.andThen (hat.safe_act (r := .ok false) (g := σ.host) (l := [])
    (congrArg (fun b => (Except.ok b, σ.host)) hdir) rfl (by simp) rfl (by simp)
    (hat.fits_idle hcached) fun hat₁ => ?_)
  simp only [Bool.false_eq_true, if_false]
  rcases hprep : Action.run (s.prepare d) σ.host with ⟨res, g⟩
  obtain ⟨hu₁, hh⟩ := hu.prepare hd hprep
  refine Task.Safe.andThen (hat₁.safe_act (g := g) (l := []) hprep rfl (by simp) rfl (by simp)
    (hat₁.fits_idle (hu₁.not_isCached hd)) fun hat₂ => ?_)
  cases res with
  | error e => exact hat₂.safe_done (hfailed hat₂ hu₁)
  | ok u =>
    refine Task.Safe.andThen (Process.Safe.mono (hat₂.safe_clear hd hu₁ (hh rfl)) fun r σ₂ hclear => ?_)
    obtain ⟨hat₃, hu₂, hc⟩ := hclear
    cases r with
    | error e => exact hat₃.safe_done (hfailed hat₃ hu₂)
    | ok u =>
      have hc := hc rfl
      refine Task.Safe.andThen (Process.Safe.mono (hat₃.safe_callEach hd hf hc) fun r σ₃ hcall => ?_)
      obtain ⟨ending, rfl, hcall, hstaged, hat₄⟩ := hcall
      have hu₃ := hstaged.isUnfetched hc hd
      cases ending with
      | done =>
        rcases hplace : Action.run (s.place d) σ₃.host with ⟨res, g'⟩
        rcases hstaged.place hc hd ⟨σ₂.host, hcall, rfl, rfl⟩ hplace with ⟨e, rfl, rfl⟩ | ⟨rfl, hw⟩
        · exact Task.Safe.andThen (hat₄.safe_act (l := []) hplace rfl (by simp) rfl (by simp)
            (hat₄.fits_idle (hu₃.not_isCached hd)) fun hat₅ =>
              hat₅.safe_done (hfailed hat₅ hu₃))
        · exact Task.Safe.andThen (hat₄.safe_act (l := [.moved t]) hplace rfl (by simp [Event.thread]) rfl
            (by simp) hw fun hat₅ => hat₅.safe_pure ⟨.moved, hat₅, hw, fun path hok => ⟨(Except.ok.inj hok).symm, rfl⟩⟩)
      | failed cause =>
        refine Task.Safe.andThen (Process.Safe.mono (hat₄.safe_discardEach hd hu₃) fun r σ₄ hdis => ?_)
        obtain ⟨rfl, hat₅, hu₄⟩ := hdis
        exact hat₅.safe_throw (hfailed hat₅ hu₄)
      | crashed =>
        have hpoisoned : s.isPoisoned d
            { σ₃.host with poisoned := (s.handle, d) :: σ₃.host.poisoned } = true := by
          simp [isPoisoned]
        exact Task.Safe.andThen (hat₄.safe_act (r := .ok ()) (l := []) rfl rfl (by simp) rfl
          (fun _ => ⟨rfl, rfl⟩) ⟨hu₃.not_isCached hd, fun _ => hpoisoned⟩ fun hat₅ =>
            hat₅.safe_throw ⟨.crashed, hat₅, ⟨hu₃.not_isCached hd, hpoisoned⟩, fun path hok => by cases hok⟩)

/-- The turn of a thread that finds the tree. -/
theorem IsAt.safe_fetchLocked_of_moved (hat : s.IsAt fetcher d t .moved σ) :
    (fetchLocked t s fetcher d).Safe (s.contract fetcher d t) (s.LeavesOff fetcher d t) σ := by
  have hdir : σ.host.isDir (s.treePath d) = true := HoldsWritten.isCached hat.fits
  unfold fetchLocked
  refine Task.Safe.andThen (hat.safe_act (r := .ok true) (g := σ.host) (l := [])
    (congrArg (fun b => (Except.ok b, σ.host)) hdir) rfl (by simp) rfl (fun _ => ⟨rfl, rfl⟩) hat.fits
    fun hat₁ => ?_)
  exact hat₁.safe_pure ⟨.moved, hat₁, hat.fits, fun path hok => ⟨(Except.ok.inj hok).symm, rfl⟩⟩

end Storage

end SolVendor
