import SolVendor.Proofs.Cache.Commands
import SolVendor.Proofs.Cache.Serialization
/-!
# Cache — trees that commands have completed

Each of the commands on one root takes the lock of its own storage, fetches,
and gives the lock back (`Commands.Knows.safe_fetchEach`). In a calm history
a tree that is cached is complete at any time, and a command that has ended
well has found or made it so (`Request.completes`).

Without calm that is not so. A command may remove what another one is still
writing, and write its own entries to the same place; then the other one
moves a tree of which the rest is yet to come.
-/

namespace SolVendor

open FileSystem Storage

variable {s : Storage} {fetcher : Fetcher} {d : Dependency} {entries : List (Location × Entry)}
  {σ τ : Shared} {t n : Nat}

namespace Commands

/-- Nothing but locks has changed hands. -/
theorem guarantees_of_same {l : List Event} (hhost : τ.host = σ.host) (hevents : τ.events = σ.events ++ l)
    (hown : ∀ e ∈ l, e.thread = t) (hl : ∀ u, .cleared u ∉ l) : Guarantees s d entries t σ τ where
  events := ⟨l, hevents, hown⟩
  continues _ hsound :=
    continues_of_same hsound (congrArg Host.files hhost) (congrArg Host.cwd hhost) hevents hl

/-- A lock is taken or given back, and what a thread has come to stays. -/
theorem EndsWell.of_guarantees {α : Type} {value : α} {r : Except Failure α}
    (h : EndsWell s d entries t value r σ) (hg : Guarantees s d entries t σ τ) :
    EndsWell s d entries t value r τ := by
  intro x hx
  obtain ⟨hvalue, hk⟩ := h x hx
  refine ⟨hvalue, fun hcalm => ?_⟩
  obtain ⟨more, hmore, -⟩ := hg.events
  obtain ⟨hsound, hcomplete⟩ := hk (IsCalm.of_append (hmore ▸ hcalm))
  have hc := hg.continues hcalm hsound
  exact ⟨hc.sound, hc.complete hcomplete⟩

/-- The lock of the own storage says nothing about the others. -/
theorem Knows.safe_acquire {s' : Storage} (hk : Knows s d entries t .outside σ) :
    (acquire t s' d).Safe (contract s d entries t) (fun _ τ => Knows s d entries t .outside τ) σ := by
  intro τ hτ
  refine ⟨trivial, fun _ => ?_⟩
  have hg : Guarantees s d entries t τ
      { τ with
        guards := if s'.isPoisoned d τ.host then τ.guards else ⟨t, s'.handle, d⟩ :: τ.guards
        events := τ.events ++ [.acquired t (s'.isPoisoned d τ.host)] } :=
    guarantees_of_same rfl rfl (by simp [Event.thread]) (by simp)
  refine ⟨hg, fun υ hυ => Knows.of_rely (fun hcalm => ?_) hυ⟩
  obtain ⟨hsound, -⟩ := (hk.of_rely hτ) (IsCalm.of_append hcalm)
  exact ⟨(hg.continues hcalm hsound).sound, trivial⟩

theorem EndsWell.safe_release {α : Type} {value : α} {r : Except Failure α}
    (h : EndsWell s d entries t value r σ) :
    (release t >>= fun _ => Task.ofExcept r).Safe (contract s d entries t)
      (EndsWell s d entries t value) σ := by
  refine Task.Safe.andThen (Process.safe_atomic fun τ hτ => ?_)
  have hg : Guarantees s d entries t τ
      { τ with
        guards := τ.guards.filter fun g => g.thread ≠ t
        events := τ.events ++ [.released t] } :=
    guarantees_of_same rfl rfl (by simp [Event.thread]) (by simp)
  refine ⟨trivial, hg, fun υ hυ ω hω => ?_⟩
  exact (((h.of_rely hτ).of_guarantees hg).of_rely hυ).of_rely hω

/-- **A command fetches the dependency** through its own storage. -/
theorem Knows.safe_fetchEach (hk : Knows s d entries t .outside σ) (hd : d.IsAccepted)
    (hc : AreConsistent entries) (hf : fetcher.Delivers d entries) :
    (fetchEach t ⟨s.root, n⟩ fetcher d).Safe (contract s d entries t)
      (EndsWell s d entries t (s.treePath d)) σ := by
  unfold fetchEach
  refine Task.Safe.andThen (Process.Safe.mono hk.safe_acquire fun r τ hk => ?_)
  cases r with
  | error e => exact fun _ _ => endsWell_error
  | ok u =>
    have hlocked := hk.safe_fetchLocked (n := n) hd hc hf
    refine Task.Safe.andThen (Task.Safe.attempt (Process.Safe.mono hlocked fun r υ hends ω hω => ?_))
    exact (hends.of_rely hω).safe_release

/-- A fetch whose result goes with the dependency. -/
theorem Knows.safe_fetchEach_map (hk : Knows s d entries t .outside σ) (hd : d.IsAccepted)
    (hc : AreConsistent entries) (hf : fetcher.Delivers d entries) :
    (do return (d, ← fetchEach t ⟨s.root, n⟩ fetcher d) : Task Shared (Dependency × Path)).Safe
      (contract s d entries t) (EndsWell s d entries t (d, s.treePath d)) σ := by
  refine Task.Safe.andThen (Process.Safe.mono (hk.safe_fetchEach hd hc hf) fun r τ hends => ?_)
  cases r with
  | error e => exact fun _ _ => endsWell_error
  | ok path =>
    obtain ⟨rfl, hk⟩ := hends path rfl
    exact fun υ hυ x hx => ⟨(Except.ok.inj hx).symm, hk.of_rely hυ⟩

/-- **A command asks for the dependency by its text.** -/
theorem Knows.safe_getEach {text : String} (htext : Dependency.parse text = .ok d)
    (hk : Knows s d entries t .outside σ) (hc : AreConsistent entries)
    (hf : fetcher.Delivers d entries) :
    (getEach t ⟨s.root, n⟩ fetcher text).Safe (contract s d entries t)
      (EndsWell s d entries t (d, s.treePath d)) σ := by
  have hd := (Dependency.isAccepted_of_parse htext).1
  unfold getEach
  rw [htext]
  refine Task.Safe.andThen fun τ hτ => ?_
  refine Task.Safe.andThen ((hk.of_rely hτ).safe_act
    (.onOk fun found => if found then .complete else .outside) (by simp) (fun {τ r g} hrun _ hsound _ => ?_) fun r τ hk => ?_)
  · rw [Action.run_observe] at hrun
    obtain ⟨rfl, rfl⟩ := Prod.mk.inj hrun
    refine ⟨continues_of_same hsound rfl rfl rfl (by simp), ?_⟩
    cases hcached : (⟨s.root, n⟩ : Storage).isCached d τ.host with
    | false => trivial
    | true => exact hsound.isComplete hd hcached
  cases r with
  | error e => exact fun _ _ => endsWell_error
  | ok cached =>
    cases cached with
    | true => exact fun υ hυ x hx => ⟨(Except.ok.inj hx).symm, hk.of_rely hυ⟩
    | false => exact hk.safe_fetchEach_map hd hc hf

/-- What the threads guarantee, one after another, leaves the host sound as long as that is calm. -/
theorem isSound_of_guaranteed (hs : IsSound s d entries σ)
    (h : Relation.ReflTransGen (Pool.Guaranteed (contract s d entries)) σ τ) (hcalm : IsCalm τ.events) :
    IsSound s d entries τ := by
  induction h with
  | refl => exact hs
  | tail _ hstep ih =>
    obtain ⟨t, hg⟩ := hstep
    have hg : Guarantees s d entries t _ _ := hg
    obtain ⟨more, hmore, -⟩ := hg.events
    exact (hg.continues hcalm (ih (IsCalm.of_append (hmore ▸ hcalm)))).sound

end Commands

namespace Request

variable {fetchers : Nat → Fetcher} {h : Host} {requests : List Request} {schedule : List Nat}
  {pool : Pool Shared (Except Failure (Dependency × Path))}

/-- **Commands on one root complete a tree.** Any number of them fetch one dependency or ask for it by its
text, each through a storage of its own on the same root or through a common one, in any order of their
steps. Their fetchers write the same entries, in any order, and each call may succeed, fail or crash. As
long as nothing is removed from the staging path while a call is under way, the tree is complete whenever
it is cached; and a command that ends well gives its path, and the tree is complete. -/
theorem completes (hl : s.Lacks d h) (hd : d.IsAccepted) (hc : AreConsistent entries)
    (hf : ∀ t, (fetchers t).Delivers d entries)
    (hfor : ∀ request ∈ requests, ∃ n, request.IsFor ⟨s.root, n⟩ d)
    (hrun : (Request.commands fetchers requests h).run schedule = some pool)
    (hcalm : IsCalm pool.shared.events) :
    (s.isCached d pool.shared.host = true → s.IsComplete d entries pool.shared.host) ∧
      ∀ t x, pool.result? t = some (.ok x) →
        x = (d, s.treePath d) ∧ s.IsComplete d entries pool.shared.host := by
  have hsound : Commands.IsSound s d entries (.ofHost h) :=
    .inl ⟨hl.isUnfetched, fun _ => List.not_mem_nil⟩
  have hsafe : (Request.commands fetchers requests h).IsSafe (Commands.contract s d entries)
      fun t => Commands.EndsWell s d entries t (d, s.treePath d) := by
    intro t p hp
    have hp : (requests.mapIdx fun thread request =>
      request.process (fetchers thread) thread)[t]? = some p := hp
    rw [List.getElem?_mapIdx] at hp
    obtain ⟨request, hrequest, rfl⟩ := Option.map_eq_some_iff.1 hp
    have hk : Commands.Knows s d entries t .outside (.ofHost h) := fun _ => ⟨hsound, trivial⟩
    obtain ⟨n, hrequest⟩ := hfor request (List.mem_of_getElem? hrequest)
    cases request with
    | fetch s' d' =>
      obtain ⟨rfl, rfl⟩ := hrequest
      exact hk.safe_fetchEach_map hd hc (hf t)
    | get s' text =>
      obtain ⟨rfl, htext⟩ := hrequest
      exact hk.safe_getEach htext hc (hf t)
  obtain ⟨hsafe, hchain⟩ := hsafe.run hrun fun hne hg => .single ⟨_, hne, hg⟩
  refine ⟨(Commands.isSound_of_guaranteed hsound hchain hcalm).isComplete hd, fun t x hx => ?_⟩
  obtain ⟨rfl, hk⟩ := hsafe.result hx x rfl
  exact ⟨rfl, (hk hcalm).2⟩

/-- The second command removes what the first one has written, and has made the destination anew when the
first one moves it. -/
example :
    ((Request.commands (fun _ => Use.sampleFetcher .done)
        [.fetch ⟨⟨"/cache"⟩, 0⟩ Use.sampleDependency, .fetch ⟨⟨"/cache"⟩, 1⟩ Use.sampleDependency]
        Use.sampleCache).run (List.replicate 8 0 ++ List.replicate 7 1 ++ [0, 0, 0])).map
      (fun pool => (pool.result? 0, pool.shared.host.files.get? ["cache", "a", "b@1.0.0"],
        pool.shared.host.files.get? ["cache", "a", "b@1.0.0", "src"])) =
      some (some (.ok sampleTree), some .dir, none) := by
  decide +kernel

/-! ## Two commands -/

/-- What the fetchers of both commands write. -/
def sampleEntries : List (Location × Entry) :=
  [(["src"], .dir), (["src", "A.sol"], .file [0])]

/-- One command fetches the dependency and the other one asks for it, each through its own storage. -/
def sampleCommands : List Request :=
  [.fetch ⟨⟨"/cache"⟩, 0⟩ Use.sampleDependency, .get ⟨⟨"/cache"⟩, 1⟩ "a/b@1.0.0"]

/-- Both calls are under way when the first command moves the tree. -/
def sampleEvents : List Event :=
  [.acquired 0 false, .cleared 0, .acquired 1 false, .cleared 1, .started 0, .started 1, .ended 0 .done,
    .moved 0, .released 0, .ended 1 .done, .released 1]

/-- Two calls overlap, and the tree is complete. -/
theorem completes_sample :
    ∃ schedule pool,
      (Request.commands (fun _ => Use.sampleFetcher .done) sampleCommands Use.sampleCache).run schedule =
        some pool ∧
      pool.shared.events = sampleEvents ∧ pool.result? 0 = some (.ok sampleTree) ∧
      Storage.IsComplete ⟨⟨"/cache"⟩, 0⟩ Use.sampleDependency sampleEntries pool.shared.host := by
  let schedule := [0, 0, 0, 0, 1, 1, 1, 1, 1, 0, 0, 1, 1, 1, 0, 0, 0, 0, 0, 1, 1, 1, 1]
  have hrun : ((Request.commands (fun _ => Use.sampleFetcher .done) sampleCommands Use.sampleCache).run
      schedule).map (fun pool => (pool.shared.events, pool.result? 0)) =
        some (sampleEvents, some (.ok sampleTree)) := by
    decide +kernel
  obtain ⟨pool, hpool, heq⟩ := Option.map_eq_some_iff.1 hrun
  obtain ⟨hevents, hresult⟩ := Prod.mk.inj heq
  have hfor : ∀ request ∈ sampleCommands, ∃ n, request.IsFor ⟨⟨"/cache"⟩, n⟩ Use.sampleDependency := by
    simp only [sampleCommands, List.forall_mem_cons, List.not_mem_nil, false_imp_iff, implies_true]
    exact ⟨⟨0, rfl, rfl⟩, ⟨1, rfl, parse_sampleDependency⟩, trivial⟩
  have hcalm : IsCalm pool.shared.events := by
    rw [hevents]
    exact isCalm_of_notMem fun t => by simp [sampleEvents]
  have hconsistent : AreConsistent sampleEntries := ⟨by decide, by decide, by decide⟩
  obtain ⟨-, hok⟩ := completes lacks_sampleCache (Dependency.isAccepted_of_parse parse_sampleDependency).1
    hconsistent (fun _ _ _ => ⟨_, _, rfl, fun _ => Iff.rfl⟩) hfor hpool hcalm
  exact ⟨schedule, pool, hpool, hevents, hresult, (hok 0 sampleTree hresult).2⟩

end Request

end SolVendor
