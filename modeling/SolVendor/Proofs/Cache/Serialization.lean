import SolVendor.Proofs.Cache.Integrity
import SolVendor.Proofs.Cache.Turns
/-!
# Cache — concurrent fetches of one dependency

Any number of threads fetch one dependency through one storage, or ask for
it by its text. In every order of their steps, and whatever becomes of each
call of the fetcher, they are served one after the other
(`Request.serialized`): calls do not overlap, one tree at most is moved into
place and is what every thread is given, and a crash leaves the dependency
locked for good.

The storage lacks the dependency at the start. That the way to the staging
path does not lead through what is left there is needed: otherwise a thread
that clears it breaks the way to the tree as well, and the next one does
not find the tree.
-/

namespace SolVendor

open FileSystem

namespace Storage

variable {s : Storage} {fetcher : Fetcher} {d : Dependency} {σ τ : Shared} {t : Nat} {φ : Phase}
  {α β : Type}

/-- How a thread ends: with the value if the tree is there, and with a failure that says so if it has
found the lock poisoned. -/
structure EndsWith (s : Storage) (fetcher : Fetcher) (d : Dependency) (t : Nat) (value : α)
    (r : Except Failure α) (σ : Shared) : Prop where
  orderly : s.IsOrderly fetcher d σ
  ok : ∀ {x}, r = .ok x → x = value ∧ Phase.idle.after? σ.events = some .moved
  poisoned : .acquired t true ∈ σ.events → r = .error (.lockPoisoned d)

/-- A thread that has ended stays so. -/
theorem EndsWith.of_rely {value : α} {r : Except Failure α}
    (he : s.EndsWith fetcher d t value r σ) (hr : (s.contract fetcher d t).rely σ τ) :
    s.EndsWith fetcher d t value r τ where
  orderly := isOrderly_of_rely hr he.orderly
  ok hok := ⟨(he.ok hok).1, moved_of_rely hr he.orderly (he.ok hok).2⟩
  poisoned hacq := he.poisoned ((mem_events_of_rely hr rfl).1 hacq)

/-- The lock of the dependency is free when nobody has it. -/
theorem IsOrderly.guards_of_isFree (ho : s.IsOrderly fetcher d σ) (hfree : σ.isFree s d = true) :
    σ.guards = [] := by
  rcases ho.guards with hnone | ⟨t, hheld⟩
  · exact hnone
  · unfold Shared.isFree at hfree
    rw [hheld] at hfree
    simp at hfree

/-- **The lock is given back** when a turn has come to its end. -/
theorem safe_release {r : Except Failure Path} (hd : d.IsAccepted)
    (hl : s.LeavesOff fetcher d t r σ) :
    (release t >>= fun _ => Task.ofExcept r).Safe (s.contract fetcher d t)
      (s.EndsWith fetcher d t (s.treePath d)) σ := by
  obtain ⟨φ, hat, hrests, hok⟩ := hl
  have hnext : φ.next (.released t) = some φ := by
    cases φ with
    | calling u => exact hrests.elim
    | _ => rfl
  have hguards : (σ.guards.filter fun g => g.thread ≠ t) = [] := by
    rw [hat.guards]
    simp
  have hphase : Phase.idle.after? (σ.events ++ [.released t]) = some φ := by
    rw [Phase.after?_append, hat.phase]
    exact (Phase.after?_singleton φ _).trans hnext
  have hlive : .acquired t true ∉ σ.events ++ [.released t] := by
    simpa using hat.live
  let τ : Shared := ⟨σ.host, σ.guards.filter fun g => g.thread ≠ t, σ.events ++ [.released t]⟩
  have ho : s.IsOrderly fetcher d τ := ⟨.inl hguards, φ, hphase, hrests.fits hd rfl⟩
  refine Task.Safe.andThen (Process.safe_atomic fun σ' hσ' => ?_)
  obtain rfl := hat.eq_of_rely hσ'
  refine ⟨hat.live, ⟨fun _ => ho, fun {u} hne hu => ?_, ⟨[.released t], rfl, by simp [Event.thread]⟩,
    fun _ => ⟨rfl, rfl⟩⟩, fun υ hυ ω hω => ?_⟩
  · rw [hat.guards] at hu
    cases hu
    exact absurd rfl hne
  · have hends : s.EndsWith fetcher d t (s.treePath d) r τ :=
      ⟨ho, fun hx => ⟨(hok _ hx).1, (hok _ hx).2 ▸ hphase⟩, fun hacq => absurd hacq hlive⟩
    exact (hends.of_rely hυ).of_rely hω

/-- **The lock is taken**, or found poisoned, where nobody has it, and it fits what has happened. -/
theorem guarantees_acquired {guards : List Guard} {poisoned : Bool} {ψ : Phase}
    (hfree : σ.guards = []) (hphase : Phase.idle.after? σ.events = some φ)
    (hguards : guards = [] ∨ guards = [⟨t, s.handle, d⟩]) (hnext : φ.next (.acquired t poisoned) = some ψ)
    (hfits : s.Fits fetcher d ⟨σ.host, guards, σ.events ++ [.acquired t poisoned]⟩ ψ) :
    Phase.idle.after? (σ.events ++ [.acquired t poisoned]) = some ψ ∧
      s.Guarantees fetcher d t σ ⟨σ.host, guards, σ.events ++ [.acquired t poisoned]⟩ := by
  have hphase' : Phase.idle.after? (σ.events ++ [.acquired t poisoned]) = some ψ := by
    rw [Phase.after?_append, hphase]
    exact (Phase.after?_singleton φ _).trans hnext
  refine ⟨hphase', fun _ => ⟨hguards.imp id fun hheld => ⟨t, hheld⟩, ψ, hphase', hfits⟩,
    fun {u} _ hu => ?_, ⟨_, rfl, by simp [Event.thread]⟩, fun _ => ⟨rfl, rfl⟩⟩
  rw [hfree] at hu
  cases hu

/-- **A thread waits for its turn, takes it and ends.** -/
theorem safe_fetchEach (hd : d.IsAccepted) (hf : fetcher.IsConfinedThroughout)
    (ho : s.IsOrderly fetcher d σ) (hlive : .acquired t true ∉ σ.events) :
    (fetchEach t s fetcher d).Safe (s.contract fetcher d t)
      (s.EndsWith fetcher d t (s.treePath d)) σ := by
  unfold fetchEach
  refine Task.Safe.andThen fun τ hτ => ?_
  have ho := isOrderly_of_rely hτ ho
  have hlive : .acquired t true ∉ τ.events := fun hacq => hlive ((mem_events_of_rely hτ rfl).1 hacq)
  refine ⟨hlive, fun hfree => ?_⟩
  have hguards := ho.guards_of_isFree hfree
  obtain ⟨φ, hphase, hfits⟩ := ho.phase
  -- Nobody has the lock, so no call is going on.
  cases hpoisoned : s.isPoisoned d τ.host with
  | true =>
    have hfits' : ∀ {l : List Event}, s.Fits fetcher d ⟨τ.host, τ.guards, l⟩ φ := fun {l} => hfits
    have hnext : φ.next (.acquired t true) = some φ := by
      cases φ with
      | calling u =>
        have hheld := hfits.2
        rw [hguards] at hheld
        cases hheld
      | _ => rfl
    obtain ⟨hphase', hg⟩ := guarantees_acquired hguards hphase (.inl hguards) hnext hfits'
    have hends : s.EndsWith fetcher d t (s.treePath d) (.error (.lockPoisoned d))
        ⟨τ.host, τ.guards, τ.events ++ [.acquired t true]⟩ :=
      ⟨hg.orderly ho, fun hok => (by cases hok), fun _ => rfl⟩
    simp only [hpoisoned, if_true]
    exact ⟨hg, fun υ hυ ω hω => (hends.of_rely hυ).of_rely hω⟩
  | false =>
    have hlive' : .acquired t true ∉ τ.events ++ [.acquired t false] := by
      simpa using hlive
    let τ' : Shared := ⟨τ.host, [⟨t, s.handle, d⟩], τ.events ++ [.acquired t false]⟩
    -- The turn begins.
    obtain ⟨ψ, hat, hg, hturn⟩ : ∃ ψ, s.IsAt fetcher d t ψ τ' ∧ s.Guarantees fetcher d t τ τ' ∧
        (fetchLocked t s fetcher d).Safe (s.contract fetcher d t) (s.LeavesOff fetcher d t) τ' := by
      cases φ with
      | idle =>
        have hfits' : s.Fits fetcher d τ' .idle := ⟨hfits.1, fun hfree => (by cases hfree)⟩
        obtain ⟨hphase', hg⟩ := guarantees_acquired hguards hphase (.inr rfl) rfl hfits'
        have hat : s.IsAt fetcher d t .idle τ' := ⟨rfl, hphase', hlive', hfits'⟩
        exact ⟨.idle, hat, hg, hat.safe_fetchLocked hd hf (hfits.2 hguards)⟩
      | calling u =>
        have hheld := hfits.2
        rw [hguards] at hheld
        cases hheld
      | moved =>
        obtain ⟨hphase', hg⟩ := guarantees_acquired hguards hphase (.inr rfl) rfl hfits
        have hat : s.IsAt fetcher d t .moved τ' := ⟨rfl, hphase', hlive', hfits⟩
        exact ⟨.moved, hat, hg, hat.safe_fetchLocked_of_moved⟩
      | crashed =>
        rw [hfits.2 hguards] at hpoisoned
        cases hpoisoned
    simp only [hpoisoned, Bool.false_eq_true, if_false, hguards]
    refine ⟨hg, fun υ hυ => ?_⟩
    rw [hat.eq_of_rely hυ]
    refine Task.Safe.andThen (Task.Safe.attempt (Process.Safe.mono hturn fun r ω hl ω' hω' => ?_))
    have hat' := hl
    obtain ⟨χ, hat', -⟩ := hat'
    rw [hat'.eq_of_rely hω']
    exact safe_release hd hl

/-- A fetch whose result goes with the dependency. -/
theorem safe_fetchEach_map (hd : d.IsAccepted) (hf : fetcher.IsConfinedThroughout)
    (ho : s.IsOrderly fetcher d σ) (hlive : .acquired t true ∉ σ.events) :
    (do return (d, ← fetchEach t s fetcher d) : Task Shared (Dependency × Path)).Safe
      (s.contract fetcher d t) (s.EndsWith fetcher d t (d, s.treePath d)) σ := by
  refine Task.Safe.andThen (Process.Safe.mono (safe_fetchEach hd hf ho hlive) fun r τ hends => ?_)
  cases r with
  | error e =>
    have hends' : s.EndsWith fetcher d t (d, s.treePath d) (.error e) τ :=
      ⟨hends.orderly, fun hok => (by cases hok), fun hacq => by rw [Except.error.inj (hends.poisoned hacq)]⟩
    exact fun υ hυ => hends'.of_rely hυ
  | ok path =>
    obtain ⟨rfl, hmoved⟩ := hends.ok rfl
    have hends' : s.EndsWith fetcher d t (d, s.treePath d) (.ok (d, s.treePath d)) τ :=
      ⟨hends.orderly, fun hok => ⟨(Except.ok.inj hok).symm, hmoved⟩,
        fun hacq => by cases hends.poisoned hacq⟩
    exact fun υ hυ => hends'.of_rely hυ

/-- **A thread that is asked for the dependency by its text** takes the tree that is there, or fetches
it. -/
theorem safe_getEach {text : String} (htext : Dependency.parse text = .ok d)
    (hf : fetcher.IsConfinedThroughout) (ho : s.IsOrderly fetcher d σ)
    (hlive : .acquired t true ∉ σ.events) :
    (getEach t s fetcher text).Safe (s.contract fetcher d t)
      (s.EndsWith fetcher d t (d, s.treePath d)) σ := by
  have hd := (Dependency.isAccepted_of_parse htext).1
  unfold getEach
  rw [htext]
  refine Task.Safe.andThen fun ρ hρ => ?_
  refine Task.Safe.andThen (Process.safe_atomic fun τ hτ => ?_)
  have hτ := (s.contract fetcher d t).trans hρ hτ
  have ho := isOrderly_of_rely hτ ho
  have hlive : .acquired t true ∉ τ.events := fun hacq => hlive ((mem_events_of_rely hτ rfl).1 hacq)
  -- Looking changes nothing.
  have hlook : Shared.act (Action.observe (s.isCached d)) (fun _ => []) τ =
      (.ok (s.isCached d τ.host), τ) := by
    unfold Shared.act
    rw [Action.run_observe]
    simp
  rw [hlook]
  refine ⟨hlive, Guarantees.refl τ, fun υ hυ => ?_⟩
  have ho' := isOrderly_of_rely hυ ho
  have hlive' : .acquired t true ∉ υ.events :=
    fun hacq => hlive ((mem_events_of_rely hυ rfl).1 hacq)
  cases hcached : s.isCached d τ.host with
  | true =>
    obtain ⟨φ, hphase, hfits⟩ := ho.phase
    obtain rfl : φ = .moved := by
      cases φ with
      | moved => rfl
      | idle => rw [hfits.1] at hcached; cases hcached
      | calling u => rw [hfits.1] at hcached; cases hcached
      | crashed => rw [hfits.1] at hcached; cases hcached
    have hends : s.EndsWith fetcher d t (d, s.treePath d) (.ok (d, s.treePath d)) υ :=
      ⟨ho', fun hok => ⟨(Except.ok.inj hok).symm, moved_of_rely hυ ho hphase⟩,
        fun hacq => absurd hacq hlive'⟩
    exact fun ω hω => hends.of_rely hω
  | false => exact safe_fetchEach_map hd hf ho' hlive'

end Storage

/-- The request is for a dependency through a storage. -/
def Request.IsFor (s : Storage) (d : Dependency) : Request → Prop
  | fetch s' d' => s' = s ∧ d' = d
  | get s' text => s' = s ∧ Dependency.parse text = .ok d

namespace Request

variable {s : Storage} {fetcher : Fetcher} {d : Dependency} {h : Host} {requests : List Request}
  {pool later : Pool Shared (Except Failure (Dependency × Path))} {schedule more : List Nat}

/-- All threads can begin. -/
theorem isSafe_pool (hl : s.Lacks d h) (hd : d.IsAccepted) (hf : fetcher.IsConfinedThroughout)
    (hfor : ∀ request ∈ requests, request.IsFor s d) :
    (Request.pool fetcher requests h).IsSafe (s.contract fetcher d)
      (fun t => s.EndsWith fetcher d t (d, s.treePath d)) := by
  have hu := hl.isUnfetched
  have ho : s.IsOrderly fetcher d (.ofHost h) :=
    ⟨.inl rfl, .idle, rfl, hu.not_isCached hd, fun _ => hu⟩
  intro t p hp
  have hp : (requests.mapIdx (process fetcher))[t]? = some p := hp
  rw [List.getElem?_mapIdx] at hp
  obtain ⟨request, hrequest, rfl⟩ := Option.map_eq_some_iff.1 hp
  have hlive : Event.acquired t true ∉ (Shared.ofHost h).events := List.not_mem_nil
  have hrequest := hfor request (List.mem_of_getElem? hrequest)
  cases request with
  | fetch s' d' =>
    obtain ⟨rfl, rfl⟩ := hrequest
    exact Storage.safe_fetchEach_map hd hf ho hlive
  | get s' text =>
    obtain ⟨rfl, htext⟩ := hrequest
    exact Storage.safe_getEach htext hf ho hlive

/-- Turns keep the host as it has to be. -/
theorem isOrderly_of_guaranteed {σ τ : Shared} (ho : s.IsOrderly fetcher d σ)
    (h : Relation.ReflTransGen (Pool.Guaranteed (s.contract fetcher d)) σ τ) :
    s.IsOrderly fetcher d τ := by
  induction h with
  | refl => exact ho
  | tail _ hstep ih =>
    obtain ⟨t, hg⟩ := hstep
    exact Storage.Guarantees.orderly hg ih

/-- **Once the tree is there, or a call has crashed, no file changes any more.** -/
theorem files_of_guaranteed {σ τ : Shared}
    (hsettled : Phase.idle.after? σ.events = some .moved ∨ Phase.idle.after? σ.events = some .crashed)
    (ho : s.IsOrderly fetcher d σ)
    (h : Relation.ReflTransGen (Pool.Guaranteed (s.contract fetcher d)) σ τ) :
    (Phase.idle.after? τ.events = some .moved ∨ Phase.idle.after? τ.events = some .crashed) ∧
      τ.host.files = σ.host.files ∧ τ.host.cwd = σ.host.cwd := by
  induction h with
  | refl => exact ⟨hsettled, rfl, rfl⟩
  | tail hchain hstep ih =>
    obtain ⟨hphase, hfiles, hcwd⟩ := ih
    obtain ⟨t, hg⟩ := hstep
    have hg : s.Guarantees fetcher d t _ _ := hg
    obtain ⟨φ, hφ, -⟩ := (hg.orderly (isOrderly_of_guaranteed ho hchain)).phase
    obtain ⟨more, hmore, -⟩ := hg.events
    obtain ⟨hfiles', hcwd'⟩ := hg.settled hphase
    refine ⟨?_, hfiles'.trans hfiles, hcwd'.trans hcwd⟩
    rw [hφ]
    rw [hmore, Phase.after?_append] at hφ
    rcases hphase with hmoved | hcrashed
    · rw [hmoved] at hφ
      exact .inl (congrArg some (Phase.after?_moved hφ).1)
    · rw [hcrashed] at hφ
      exact .inr (congrArg some (Phase.after?_crashed hφ).1)

/-- **Concurrent fetches of one dependency are serialized.** Any number of threads fetch it through one
storage or ask for it by its text, in any order of their steps, with a fetcher of which each call may
succeed, fail or crash. Then calls of the fetcher do not overlap; once a tree has been moved into place, or
a call has crashed, locks change hands and nothing else happens; and no file changes from then on. A thread
that succeeds is given the path of the tree, which has been moved into place and holds just what the last
call has written. A thread that finds the lock poisoned has failed and says so. -/
theorem serialized (hl : s.Lacks d h) (hd : d.IsAccepted) (hf : fetcher.IsConfinedThroughout)
    (hfor : ∀ request ∈ requests, request.IsFor s d)
    (hrun : (Request.pool fetcher requests h).run schedule = some pool) :
    IsSerial pool.shared.events ∧
      (∀ t x, pool.result? t = some (.ok x) →
        x = (d, s.treePath d) ∧ ∃ u, .moved u ∈ pool.shared.events) ∧
      (∀ u, .moved u ∈ pool.shared.events → s.HoldsWritten fetcher d pool.shared.host) ∧
      (∀ t < requests.length, .acquired t true ∈ pool.shared.events →
        pool.result? t = some (.error (.lockPoisoned d))) ∧
      ∀ u more later, .moved u ∈ pool.shared.events ∨ .ended u .crashed ∈ pool.shared.events →
        pool.run more = some later →
          later.shared.host.files = pool.shared.host.files ∧
            later.shared.host.cwd = pool.shared.host.cwd := by
  have hfit : ∀ {i j : Nat} {σ τ : Shared}, i ≠ j → (s.contract fetcher d i).guar σ τ →
      (s.contract fetcher d j).rely σ τ := fun hne hg => .single ⟨_, hne, hg⟩
  have ho : s.IsOrderly fetcher d (.ofHost h) :=
    ⟨.inl rfl, .idle, rfl, hl.isUnfetched.not_isCached hd, fun _ => hl.isUnfetched⟩
  obtain ⟨hsafe, hchain⟩ := (isSafe_pool hl hd hf hfor).run hrun hfit
  have ho := isOrderly_of_guaranteed ho hchain
  obtain ⟨φ, hphase, hfits⟩ := ho.phase
  refine ⟨isSerial_of_after? hphase, fun t x hx => ?_, fun u hu => ?_, fun t ht hacq => ?_,
    fun u more later hsettled hmore => ?_⟩
  · obtain ⟨rfl, hmoved⟩ := (hsafe.result hx).ok rfl
    exact ⟨rfl, Phase.exists_moved hmoved⟩
  · obtain rfl := Phase.after?_eq_moved hphase hu
    exact hfits
  · have hlen : t < pool.processes.length := by
      rw [Pool.length_of_run hrun]
      simpa [Request.pool] using ht
    rcases hsafe.result_or_live hlen with ⟨r, hr⟩ | hlive
    · rw [hr, (hsafe.result hr).poisoned hacq]
    · exact absurd hacq hlive
  · obtain ⟨-, hchain'⟩ := hsafe.run hmore hfit
    refine (files_of_guaranteed ?_ ho hchain').2
    rw [hphase]
    rcases hsettled with hmoved | hcrashed
    · exact .inl (congrArg some (Phase.after?_eq_moved hphase hmoved))
    · exact .inr (congrArg some (Phase.after?_eq_crashed hphase hcrashed))

/-- The root leads through the staging directory. The fetch moves that away, and does not find the tree
afterwards. -/
example :
    let s : Storage := ⟨⟨"/a/.b@1.0.0.partial/../.."⟩, 0⟩
    let h : Host := .ofFiles (empty.plant ["a", ".b@1.0.0.partial"] .dir) [] ⟨"/"⟩
    let after := Action.run (s.fetch (fun _ _ _ => ⟨some [], true, .done⟩) Use.sampleDependency) h
    (after.1.isOk, s.isCached Use.sampleDependency after.2) = (true, false) := by
  decide +kernel

/-! ## Two threads -/

/-- One thread fetches the dependency and the other one asks for it. -/
def sampleRequests : List Request :=
  [.fetch ⟨⟨"/cache"⟩, 0⟩ Use.sampleDependency, .get ⟨⟨"/cache"⟩, 0⟩ "a/b@1.0.0"]

def sampleTree : Dependency × Path := (Use.sampleDependency, ⟨"/cache/a/b@1.0.0"⟩)

theorem parse_sampleDependency : Dependency.parse "a/b@1.0.0" = .ok Use.sampleDependency := by
  decide

theorem lacks_sampleCache : Storage.Lacks ⟨⟨"/cache"⟩, 0⟩ Use.sampleDependency Use.sampleCache :=
  Storage.lacks_of_isEmptyCache Use.isEmptyCache_sampleCache
    (wellFormed_empty.put (show empty.get? [] = some .dir from rfl) rfl (by decide))
    (Dependency.isAccepted_of_parse parse_sampleDependency).1 (by decide)

/-- The first thread fetches the tree; the second one is given it. -/
theorem serialized_sample :
    ∃ schedule pool,
      (Request.pool (Use.sampleFetcher .done) sampleRequests Use.sampleCache).run schedule = some pool ∧
      pool.result? 0 = some (.ok sampleTree) ∧ pool.result? 1 = some (.ok sampleTree) ∧
      IsSerial pool.shared.events ∧ (∃ u, .moved u ∈ pool.shared.events) ∧
      Storage.HoldsWritten ⟨⟨"/cache"⟩, 0⟩ (Use.sampleFetcher .done) Use.sampleDependency
        pool.shared.host := by
  let s : Storage := ⟨⟨"/cache"⟩, 0⟩
  let fetcher := Use.sampleFetcher .done
  let first : Request := .fetch s Use.sampleDependency
  let second : Request := .get s "a/b@1.0.0"
  let σ := Shared.ofHost Use.sampleCache
  -- Each thread in turn is let alone.
  obtain ⟨l, hl⟩ : (first.process fetcher 0).EndsAs (first.action fetcher) σ :=
    first.endsAs_process rfl
  let τ := σ.become (Action.run (first.action fetcher) σ.host).2 l
  obtain ⟨m, hm⟩ : (second.process fetcher 1).EndsAs (second.action fetcher) τ :=
    second.endsAs_process rfl
  have hstart : σ.host = Use.sampleCache := rfl
  have hfirst : (Action.run (first.action fetcher) σ.host).1 = .ok sampleTree := by
    rw [hstart]
    decide +kernel
  have hsecond : (Action.run (second.action fetcher)
      (Action.run (first.action fetcher) σ.host).2).1 = .ok sampleTree := by
    rw [hstart]
    decide +kernel
  rw [← σ.host_become (Action.run (first.action fetcher) σ.host).2 l] at hsecond
  have hfor : ∀ request ∈ sampleRequests, request.IsFor s Use.sampleDependency := by
    simp only [sampleRequests, List.forall_mem_cons, List.not_mem_nil, false_imp_iff, implies_true]
    exact ⟨⟨rfl, rfl⟩, ⟨rfl, parse_sampleDependency⟩, trivial⟩
  let before := Request.pool fetcher sampleRequests Use.sampleCache
  obtain ⟨n, hn⟩ := before.exists_run_of_runAlone (i := 0) rfl hl
  let between : Pool Shared (Except Failure (Dependency × Path)) :=
    ⟨τ, before.processes.set 0 (.done (Action.run (first.action fetcher) σ.host).1)⟩
  obtain ⟨k, hk⟩ := between.exists_run_of_runAlone (i := 1) rfl hm
  have hrun := Pool.run_append_of_run hn hk
  obtain ⟨hserial, hok, hheld, -, -⟩ := serialized lacks_sampleCache
    (Dependency.isAccepted_of_parse parse_sampleDependency).1
    (Fetcher.isConfinedThroughout_of_isPlain (Use.isPlain_sampleFetcher .done)) hfor hrun
  have hresult := congrArg (fun r : Except Failure (Dependency × Path) => some r) hfirst
  obtain ⟨-, u, hu⟩ := hok 0 sampleTree hresult
  exact ⟨_, _, hrun, hresult, congrArg some hsecond, hserial, ⟨u, hu⟩, hheld u hu⟩

end Request

end SolVendor
