import SolVendor.Install.Listing
import SolVendor.Proofs.Cache.Frame
import SolVendor.Proofs.Cache.Integrity
import SolVendor.Proofs.Install.Cached
/-!
# Install — before the first copy

An install works out what it will copy before it copies anything: that is a
plan, and an install is the making of a plan and then its carrying out
(`Plan.make_bind_carryOut`). Making a plan can fail at many points, and so can a
listing. Whatever the point, all that has happened to the host is that a
storage may have been opened, and that it may have fetched
(`Began`): so nothing was touched but the way to the tree, the tree and the
staging tree (`Installation.touches_cache_before_copies`).
-/

namespace SolVendor

open FileSystem Host

/-- What an install has worked out when it begins to copy. -/
structure Plan where
  dependency : Dependency
  tree : Path
  destination : Path
  /-- The paths of the selected files. -/
  selected : List String
  /-- The paths of all files to copy. -/
  files : List Path
  dryRun : Bool

namespace Plan

/-- Make a plan with a storage and a settled configuration. -/
def ofStorage (s : Storage) (fetcher : Fetcher) (c : Config) : Action Plan := do
  let dependency ← Action.ofExcept c.spec
  if c.select.isEmpty then throw .nothingSelected
  let ⟨tree, graph⟩ ← s.resolve fetcher c
  let selected ← Action.ofExcept (graph.select c.select)
  let dest := Export.destination (← Action.ofExcept c.root) c.libDir dependency
  let files ← Action.ofExcept (Export.pathsOf graph (graph.closure selected.toList))
  return ⟨dependency, tree, dest, Installation.pathTexts graph selected, files, c.dryRun⟩

/-- Make a plan. -/
def make (fetcher : Fetcher) (c : Config) : Action Plan := do
  let c ← c.settled
  let s ← Storage.openDefault c.cacheDir
  ofStorage s fetcher c

/-- Make the copies of a plan, unless it is for a dry run. -/
def carryOut (p : Plan) : Action Installation := do
  unless p.dryRun do Export.copyAll p.tree p.destination p.files
  return ⟨p.dependency, p.destination, p.selected, p.files, p.dryRun⟩

variable {fetcher : Fetcher} {c : Config} {s : Storage} {h : Host}

theorem ofStorage_bind_carryOut :
    Installation.ofStorage s fetcher c = ofStorage s fetcher c >>= carryOut := by
  unfold Installation.ofStorage ofStorage carryOut Export.run
  simp only [bind_assoc]
  refine bind_congr fun dependency => ?_
  split
  · rfl
  · simp only [bind_assoc]
    refine bind_congr fun _ => bind_congr fun selected => bind_congr fun root => bind_congr fun files => ?_
    simp only [pure_bind]
    split
    · simp only [pure_bind]
    · simp only [bind_assoc, pure_bind]

/-- **An install makes a plan and carries it out.** -/
theorem make_bind_carryOut : Installation.run fetcher c = make fetcher c >>= carryOut := by
  unfold Installation.run make
  simp only [ofStorage_bind_carryOut, bind_assoc]

end Plan

namespace Installation

variable {fetcher : Fetcher} {c c' : Config} {d : Dependency} {s : Storage} {h g : Host}
  {dir k : Location} {α : Type}

/-! ## What has happened -/

/-- The storage that a configuration asks for. -/
def storageOf (c : Config) (h : Host) : Storage := ⟨cacheRoot c h, h.storages⟩

/-- What has happened to a host when no copy has been made: nothing, or a storage has been opened, or it
has fetched as well. -/
inductive Began (fetcher : Fetcher) (c : Config) (d : Dependency) (h : Host) : Host → Prop
  | idle : Began fetcher c d h h
  | opened : Began fetcher c d h (Action.run (Storage.openDefault c.cacheDir) h).2
  | fetched {s : Storage} {g : Host}
      (opens : Action.run (Storage.openDefault c.cacheDir) h = (.ok s, g)) :
      Began fetcher c d h (Action.run (s.fetch fetcher d) g).2

/-- What only looks at the host leaves what came before it. -/
theorem snd_run_bind {β : Type} {a : Action α} {f : α → Action β}
    (hf : ∀ x g, (Action.run (f x) g).2 = g) (h : Host) :
    (Action.run (a >>= f) h).2 = (Action.run a h).2 := by
  rw [Action.run_bind]
  rcases Action.run a h with ⟨_ | x, g⟩
  · rfl
  · exact hf x g

/-- Reading what a storage has changes nothing more than a fetch does. -/
theorem run_resolve_cases (s : Storage) (fetcher : Fetcher)
    (hd : Dependency.parse c.dependency = .ok d) (h : Host) :
    (Action.run (s.resolve fetcher c) h).2 = h ∨
      (Action.run (s.resolve fetcher c) h).2 = (Action.run (s.fetch fetcher d) h).2 := by
  have hget : (Action.run (s.getDependency fetcher c.dependency) h).2 = h ∨
      (Action.run (s.getDependency fetcher c.dependency) h).2 =
        (Action.run (s.fetch fetcher d) h).2 := by
    unfold Storage.getDependency
    rw [hd, Action.run_bind, Action.run_ofExcept]
    simp only
    rw [Action.run_bind, Action.run_observe]
    simp only
    split
    · exact .inl rfl
    · exact .inr (snd_run_bind (fun _ _ => rfl) h)
  unfold Storage.resolve
  rw [snd_run_bind]
  · exact hget
  · rintro ⟨_, tree⟩ g
    simp only [Action.run_bind, Action.run_observe, Action.run_ofExcept]
    cases Tree.graph g.files g.cwd tree <;> rfl

/-- What is done with a storage once it is open, if that is no more than resolving. -/
theorem began_of_settled {f : Storage → Config → Action α}
    (hd : Dependency.parse c.dependency = .ok d)
    (hf : ∀ {s c' g}, c'.dependency = c.dependency → (Action.run (f s c') g).2 = g ∨
      (Action.run (f s c') g).2 = (Action.run (s.resolve fetcher c') g).2) :
    Began fetcher c d h (Action.run (c.settled >>= fun c =>
      Storage.openDefault c.cacheDir >>= fun s => f s c) h).2 := by
  rw [Action.run_bind]
  rcases run_settled_cases (h := h) hd with ⟨e, hsettled⟩ | ⟨root, c', -, hc', hsettled⟩
  · rw [hsettled]
    exact .idle
  · rw [hsettled]
    simp only
    rw [Action.run_bind, hc'.cacheDir]
    have hopened : Began fetcher c d h (Action.run (Storage.openDefault c.cacheDir) h).2 := .opened
    rcases hopen : Action.run (Storage.openDefault c.cacheDir) h with ⟨e | s, g⟩
    · rw [hopen] at hopened
      exact hopened
    · rw [hopen] at hopened
      rcases hf (s := s) (g := g) hc'.dependency with hsame | hsame
      · simp only [hsame]
        exact hopened
      · rcases run_resolve_cases s fetcher (hc'.dependency ▸ hd) g with heq | heq
        · simp only [hsame, heq]
          exact hopened
        · simp only [hsame, heq]
          exact .fetched hopen

theorem began_listing (hd : Dependency.parse c.dependency = .ok d) :
    Began fetcher c d h (Action.run (Listing.run fetcher c) h).2 := by
  refine began_of_settled hd fun {s c' g} _ => ?_
  unfold Listing.ofStorage
  rw [Action.run_bind, Action.run_ofExcept]
  cases c'.spec with
  | error e => exact .inl rfl
  | ok dependency =>
    refine .inr (snd_run_bind (fun r g => ?_) g)
    rw [Action.run_bind, Action.run_ofExcept]
    cases r.graph.select c'.select <;> rfl

theorem began_plan (hd : Dependency.parse c.dependency = .ok d) :
    Began fetcher c d h (Action.run (Plan.make fetcher c) h).2 := by
  refine began_of_settled hd fun {s c' g} _ => ?_
  unfold Plan.ofStorage
  rw [Action.run_bind, Action.run_ofExcept]
  cases c'.spec with
  | error e => exact .inl rfl
  | ok dependency =>
    simp only
    split
    · exact .inl rfl
    · refine .inr (snd_run_bind (fun r g => ?_) g)
      rw [Action.run_bind, Action.run_ofExcept]
      cases r.graph.select c'.select with
      | error e => rfl
      | ok selected =>
        simp only
        rw [Action.run_bind, Action.run_ofExcept]
        cases c'.root with
        | error e => rfl
        | ok root =>
          simp only
          rw [Action.run_bind, Action.run_ofExcept]
          cases Export.pathsOf r.graph (r.graph.closure selected.toList) <;> rfl

/-! ## What it has touched -/

/-- The storage that has been opened is the one that was asked for. Opening it has made directories. -/
theorem openDefault_spec {opened : Except Failure Storage}
    (hrun : Action.run (Storage.openDefault c.cacheDir) h = (opened, g)) :
    (∀ s, opened = .ok s → s = storageOf c h) ∧ g.fetches = h.fetches ∧ g.cwd = h.cwd ∧
      h.files.AddsDirs h.cwd (cacheRoot c h).ancestors g.files := by
  have hadds := addsDirs_makeDirs h.files h.cwd (cacheRoot c h)
  rw [run_openDefault] at hrun
  unfold Storage.openAt at hrun
  rcases Action.run_bind_cases hrun with ⟨e, hmake, rfl⟩ | ⟨⟨⟩, g₁, hmake, hrest⟩
  · rw [Action.run_during, Action.run_makeDirs] at hmake
    obtain ⟨-, rfl⟩ := Prod.mk.inj hmake
    exact ⟨fun s hs => absurd hs (by simp), rfl, rfl, hadds⟩
  · rw [Action.run_during, Action.run_makeDirs] at hmake
    obtain ⟨-, rfl⟩ := Prod.mk.inj hmake
    have hrest : (Except.ok _, _) = (opened, g) := hrest
    obtain ⟨rfl, rfl⟩ := Prod.mk.inj hrest
    exact ⟨fun s hs => (Except.ok.inj hs).symm, rfl, rfl, hadds⟩

/-- When a command hands a destination to the fetcher, the fetcher writes under that only. -/
def FetchesWithin (fetcher : Fetcher) (c : Config) (d : Dependency) (h : Host) : Prop :=
  ∀ {opened before : Host},
    Action.run (Storage.openDefault c.cacheDir) h = (.ok (storageOf c h), opened) →
    Action.run ((storageOf c h).prepare d >>= fun _ => (storageOf c h).sweep d) opened =
      (.ok (), before) →
    (storageOf c h).CallsWithin fetcher d before

/-- The host on which the directory that the tree will be in has been made. -/
def housed (c : Config) (d : Dependency) (h : Host) : Host :=
  (Action.run (Storage.openDefault c.cacheDir >>= fun s => s.prepare d) h).2

/-- Opening the storage makes the way to its trees. -/
theorem addsWay_openDefault :
    (storageOf c h).AddsWay d h (Action.run (Storage.openDefault c.cacheDir) h).2 := by
  rcases hopen : Action.run (Storage.openDefault c.cacheDir) h with ⟨opened, g⟩
  obtain ⟨-, -, hcwd, hadds⟩ := openDefault_spec hopen
  exact .of_addsDirs (List.prefix_append _ _) hcwd hadds

/-- **What has happened has touched the tree and the staging tree**, and the way to them. -/
theorem Began.isTouched (hb : Began fetcher c d h g) (hd : d.IsAccepted)
    (hf : FetchesWithin fetcher c d h) : h.IsTouched ((storageOf c h).sites d) g := by
  have hopened : h.IsTouched ((storageOf c h).sites d)
      (Action.run (Storage.openDefault c.cacheDir) h).2 := by
    rw [run_openDefault]
    exact Storage.isTouched_openAt hd rfl h
  cases hb with
  | idle => exact .refl _ h
  | opened => exact hopened
  | fetched opens =>
    obtain rfl := (openDefault_spec opens).1 _ rfl
    rw [opens] at hopened
    exact hopened.trans (Storage.isTouched_fetch (hf opens))

/-- **It has changed nothing else**, if the way to the trees is apart from them. -/
theorem Began.changesCache (hb : Began fetcher c d h g) (hd : d.IsAccepted)
    (hf : FetchesWithin fetcher c d h) (ha : (storageOf c h).IsApart d dir (housed c d h)) :
    (storageOf c h).ChangesCache d dir h g := by
  have hway := addsWay_openDefault (c := c) (d := d) (h := h)
  cases hb with
  | idle => exact (Storage.AddsWay.refl _ d h).changesCache
  | opened => exact hway.changesCache
  | @fetched _ opened opens =>
    obtain rfl := (openDefault_spec opens).1 _ rfl
    rw [opens] at hway
    rcases Storage.isTouched_fetch_of_prepare (hf opens) with heq | ht
    · rw [heq]
      exact hway.changesCache
    · have hhoused : housed c d h = (Action.run ((storageOf c h).prepare d) opened).2 := by
        unfold housed
        rw [Action.run_bind, opens]
      rw [← hhoused] at ht
      refine ha.changesCache hd (hway.trans ?_) ht
      rw [hhoused]
      exact Storage.addsWay_prepare hd _

/-! ## Failures -/

/-- A configuration that does not settle ends both commands, with nothing changed. -/
theorem run_of_settle_error {e : Failure} {f : Config → Action α}
    (he : (c.settle h).1 = .error e) :
    Action.run (c.settled >>= f) h = (.error e, h) := by
  have hsettled : Action.run c.settled h = (.error e, h) := by
    unfold Config.settled
    rw [Action.run_bind, Action.run_observe]
    simp only
    rw [Action.run_bind, Action.run_ofExcept, he]
  rw [Action.run_bind, hsettled]

/-- The dependency is malformed, or there is no project. -/
def IsRefused (c : Config) (h : Host) (e : Failure) : Prop :=
  Dependency.parse c.dependency = .error e ∨
    ∃ d, Dependency.parse c.dependency = .ok d ∧ Project.findRoot h c.projectRoot = .error e

theorem IsRefused.settle_error {e : Failure} (hr : IsRefused c h e) : (c.settle h).1 = .error e := by
  unfold Config.settle
  rcases hr with he | ⟨d, hd, he⟩
  · rw [he]
  · rw [hd, he]

/-- **Without a selection there is no fetch**, and no success. -/
theorem fetches_of_select_nil (hselect : c.select = []) :
    (∃ e, (Action.run (run fetcher c) h).1 = .error e) ∧
      (Action.run (run fetcher c) h).2.fetches = h.fetches := by
  have hsettled : (∃ e, Action.run c.settled h = (.error e, h)) ∨
      ∃ c', Action.run c.settled h = (.ok c', h) ∧ c'.select = [] ∧ c'.cacheDir = c.cacheDir := by
    unfold Config.settled Config.settle
    rw [Action.run_bind, Action.run_observe]
    simp only
    cases Dependency.parse c.dependency with
    | error e => exact .inl ⟨e, rfl⟩
    | ok d =>
      simp only
      cases Project.findRoot h c.projectRoot with
      | error e => exact .inl ⟨e, rfl⟩
      | ok root => exact .inr ⟨_, rfl, hselect, rfl⟩
  unfold run
  rw [Action.run_bind]
  rcases hsettled with ⟨e, hsettled⟩ | ⟨c', hsettled, hselect', hcache⟩
  · rw [hsettled]
    exact ⟨⟨e, rfl⟩, rfl⟩
  · rw [hsettled]
    simp only
    rw [Action.run_bind, hcache]
    rcases hopen : Action.run (Storage.openDefault c.cacheDir) h with ⟨e | s, g⟩
    · exact ⟨⟨e, rfl⟩, (openDefault_spec hopen).2.1⟩
    · have hstops : ∃ e, Action.run (ofStorage s fetcher c') g = (.error e, g) := by
        unfold ofStorage
        rw [Action.run_bind, Action.run_ofExcept]
        cases c'.spec with
        | error e => exact ⟨e, rfl⟩
        | ok d =>
          rw [hselect']
          exact ⟨.nothingSelected, rfl⟩
      obtain ⟨e, hstops⟩ := hstops
      simp only [hstops]
      exact ⟨⟨e, rfl⟩, (openDefault_spec hopen).2.1⟩

/-- **Errors come before any copy.** -/
theorem touches_cache_before_copies (fetcher : Fetcher) (c : Config) (h : Host) :
    (∀ e, IsRefused c h e →
      Action.run (Listing.run fetcher c) h = (.error e, h) ∧
        Action.run (run fetcher c) h = (.error e, h)) ∧
    (∀ d g, Dependency.parse c.dependency = .ok d → FetchesWithin fetcher c d h →
      g = (Action.run (Listing.run fetcher c) h).2 ∨ g = (Action.run (Plan.make fetcher c) h).2 →
        h.IsTouched ((storageOf c h).sites d) g ∧
          ∀ dir, (storageOf c h).IsApart d dir (housed c d h) →
            (storageOf c h).ChangesCache d dir h g) ∧
    (∀ e g, Action.run (Plan.make fetcher c) h = (.error e, g) →
      Action.run (run fetcher c) h = (.error e, g)) ∧
    (∀ p g, Action.run (Plan.make fetcher c) h = (.ok p, g) →
      Action.run (run fetcher c) h = Action.run p.carryOut g) ∧
    (c.select = [] → (∃ e, (Action.run (run fetcher c) h).1 = .error e) ∧
      (Action.run (run fetcher c) h).2.fetches = h.fetches) := by
  refine ⟨fun e hr => ?_, fun d g hd hf hg => ?_, fun e g hplan => ?_, fun p g hplan => ?_,
    fetches_of_select_nil⟩
  · exact ⟨run_of_settle_error hr.settle_error, run_of_settle_error hr.settle_error⟩
  · have ha := (Dependency.isAccepted_of_parse hd).1
    have hb : Began fetcher c d h g := by
      rcases hg with rfl | rfl
      · exact began_listing hd
      · exact began_plan hd
    exact ⟨hb.isTouched ha hf, fun dir => hb.changesCache ha hf⟩
  · rw [Plan.make_bind_carryOut, Action.run_bind, hplan]
  · rw [Plan.make_bind_carryOut, Action.run_bind, hplan]

/-! ## An unknown query -/

/-- A project at `/p`, and nothing else. -/
def projectHost : Host :=
  .ofFiles (empty.plant ["p", "Makefile"] (.file [])) ["p"] ⟨"/"⟩

/-- The configuration asks for a file that the fetcher of the sample does not write. -/
def unknownQuery : Config :=
  { dependency := "a/b@1.0.0", cacheDir := some ⟨"/cache"⟩, select := ["B.sol"] }

/-- The directory of all trees has been made there. -/
def projectHostOpened : Host :=
  { projectHost with files := projectHost.files.put ["cache"] .dir, storages := 1 }

theorem run_openDefault_projectHost :
    Action.run (Storage.openDefault unknownQuery.cacheDir) projectHost =
      (.ok ⟨⟨"/cache"⟩, 0⟩, projectHostOpened) := by
  have hname : projectHost.files.Names projectHost.cwd ⟨"/cache"⟩ ["cache"] :=
    ⟨by decide +kernel, [], "cache", rfl, by decide +kernel⟩
  have hmake := makeDirs_of_names hname (by decide +kernel)
  rw [run_openDefault]
  show Action.run (Storage.openAt ⟨"/cache"⟩) projectHost = _
  unfold Storage.openAt
  rw [Action.run_bind, Action.run_during, Action.run_makeDirs, hmake]
  rfl

theorem isEmptyCache_projectHostOpened : IsEmptyCache ⟨"/cache"⟩ ["cache"] projectHostOpened where
  cwd_dir := by decide +kernel
  leads := walk_find_eq_ok_iff.1 (by decide +kernel)
  dir := by decide +kernel
  empty {rel} hrel := by
    show ((empty.plant ["p", "Makefile"] (.file [])).put ["cache"] .dir).get?
      ((["cache"] : Location) ++ rel) = none
    rw [get?_put_of_ne_nil (by simp), if_neg (by simpa using hrel), get?_plant (by simp), if_neg (by simp),
      if_neg (by simp), get?_empty (by simp)]

theorem parse_unknownQuery : Dependency.parse unknownQuery.dependency = .ok Use.sampleDependency := by
  decide

theorem fetchesWithin_unknownQuery :
    FetchesWithin (Use.sampleFetcher .done) unknownQuery Use.sampleDependency projectHost := by
  intro opened before hopen hrun
  rw [run_openDefault_projectHost] at hopen
  obtain ⟨-, rfl⟩ := Prod.mk.inj hopen
  exact Storage.callsWithin_of_isTidy (Use.isConfined_sampleFetcher .done)
    isEmptyCache_projectHostOpened.isTidy
    (Dependency.isAccepted_of_parse parse_unknownQuery).1 (by decide) hrun

theorem isApart_unknownQuery :
    (storageOf unknownQuery projectHost).IsApart Use.sampleDependency ["cache", "a"]
      (housed unknownQuery Use.sampleDependency projectHost) where
  apart := ⟨walk_find_eq_ok_iff.1 (by decide +kernel), by decide +kernel⟩
  cwd_dir := by decide +kernel

/-- The tree is fetched before the query is found to be unknown. All that has changed is below `/cache/a`,
and its directories are new. -/
theorem touches_cache_before_copies_sample :
    ∃ g, Action.run (run (Use.sampleFetcher .done) unknownQuery) projectHost =
        (.error (.noMatch "B.sol"), g) ∧
      g.files.get? ["cache", "a", "b@1.0.0", "src", "A.sol"] = some (.file [0]) ∧
      projectHost.IsTouched ((storageOf unknownQuery projectHost).sites Use.sampleDependency) g ∧
      (storageOf unknownQuery projectHost).ChangesCache Use.sampleDependency ["cache", "a"] projectHost
        g := by
  obtain ⟨hfails, htree⟩ :
      (Action.run (Plan.make (Use.sampleFetcher .done) unknownQuery) projectHost).1.map (fun _ => ()) =
        .error (.noMatch "B.sol") ∧
      (Action.run (Plan.make (Use.sampleFetcher .done) unknownQuery) projectHost).2.files.get?
        ["cache", "a", "b@1.0.0", "src", "A.sol"] = some (.file [0]) := by decide +kernel
  obtain ⟨-, hbefore, herror, -, -⟩ :=
    touches_cache_before_copies (Use.sampleFetcher .done) unknownQuery projectHost
  rcases hplan : Action.run (Plan.make (Use.sampleFetcher .done) unknownQuery) projectHost with ⟨e | p, g⟩
  · rw [hplan] at hfails htree
    obtain rfl := Except.error.inj hfails
    obtain ⟨htouched, hcache⟩ := hbefore Use.sampleDependency g parse_unknownQuery
      fetchesWithin_unknownQuery (.inr (by rw [hplan]))
    exact ⟨g, herror _ g hplan, htree, htouched, hcache _ isApart_unknownQuery⟩
  · rw [hplan] at hfails
    cases hfails

end Installation

end SolVendor
