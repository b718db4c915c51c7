import SolVendor.Proofs.Install.Plan
import SolVendor.Proofs.Install.Reports
import SolVendor.Proofs.Install.Writes
/-!
# Install — a dry run

A dry run makes the plan of an install and reports it, but makes no copies.
The plan is the same, save for the mark that it is for a dry run
(`Plan.make_dryRun`). So a dry run fails as the install would fail before
its first copy; and if the install then succeeds, it reports the same, and
the files that it has written are those that the dry run has told
(`Installation.dry_run_predicts`). That is so in whatever order the steps of
the copies are taken (`Installation.Ends`).
-/

namespace SolVendor

open FileSystem

variable {fetcher : Fetcher} {c : Config} {d : Dependency} {root : Path} {h h' h₁ : Host}

/-- A configuration for a dry run settles as the same one for an install. -/
theorem Config.settled_dryRun (b : Bool) :
    Config.settled { c with dryRun := b } = (fun c => { c with dryRun := b }) <$> c.settled := by
  have hsettle : ∀ h, Config.settle h { c with dryRun := b } =
      ((c.settle h).1, { (c.settle h).2 with dryRun := b }) := by
    intro h
    unfold Config.settle
    simp only
    cases Dependency.parse c.dependency with
    | error e => rfl
    | ok d => cases Project.findRoot h c.projectRoot <;> rfl
  unfold Config.settled Action.observe
  simp only [hsettle, map_bind, map_pure, bind_assoc, pure_bind]

namespace Plan

variable {s : Storage} {p : Plan}

theorem ofStorage_dryRun (b : Bool) :
    ofStorage s fetcher { c with dryRun := b } =
      (fun p => { p with dryRun := b }) <$> ofStorage s fetcher c := by
  unfold ofStorage
  simp only [map_bind]
  refine bind_congr fun d => ?_
  split
  · simp only [map_bind]
    rfl
  · simp only [map_bind, map_pure]
    rfl

/-- **A dry run makes the same plan**, but that it is marked. -/
theorem make_dryRun (b : Bool) :
    make fetcher { c with dryRun := b } = (fun p => { p with dryRun := b }) <$> make fetcher c := by
  unfold make
  rw [Config.settled_dryRun]
  simp only [map_bind, ← ofStorage_dryRun, bind_map_left]

/-! ## Plans for a tree that is cached -/

/-- The plan for a tree with this graph. -/
def ofGraph (c : Config) (d : Dependency) (root tree : Path) (g : ImportGraph) : Except Failure Plan := do
  let selected ← g.select c.select
  let files ← Export.pathsOf g (g.closure selected.toList)
  return ⟨d, tree, Export.destination root c.libDir d, Installation.pathTexts g selected, files, c.dryRun⟩

/-- The plan for a tree that is cached. -/
def ofCached (c : Config) (d : Dependency) (root : Path) (h : Host) : Except Failure Plan :=
  if c.select.isEmpty then .error .nothingSelected
  else Tree.graph h.files h.cwd ((Installation.cacheRoot c h).join d.cacheKey) >>=
    ofGraph c d root ((Installation.cacheRoot c h).join d.cacheKey)

/-- **If the tree is cached, the plan is read off the files**, and none of them changes. -/
theorem make_of_isBegun (fetcher : Fetcher) (hb : IsBegun c d root h) :
    Action.run (make fetcher c) h = (ofCached c d root h, { h with storages := h.storages + 1 }) := by
  have hbegin : Action.run (make fetcher c) h = _ := hb.run (fun s c => ofStorage s fetcher c) c.select
  rw [hbegin]
  unfold ofStorage ofCached Config.spec Config.root
  rw [Action.run_bind, Action.run_ofExcept]
  simp only
  split
  · rfl
  rw [Action.run_bind, hb.run_resolve]
  cases Tree.graph h.files h.cwd ((Installation.cacheRoot c h).join d.cacheKey) with
  | error e => rfl
  | ok g =>
    show _ = (ofGraph c d root _ g, _)
    unfold ofGraph
    simp only [Except.map]
    rw [Action.run_bind, Action.run_ofExcept]
    cases g.select c.select with
    | error e => rfl
    | ok selected =>
      show _ = (Export.pathsOf g (g.closure selected.toList) >>= _, _)
      simp only
      rw [Action.run_bind, Action.run_ofExcept]
      simp only
      rw [Action.run_bind, Action.run_ofExcept]
      cases Export.pathsOf g (g.closure selected.toList) <;> rfl

/-- Its files are those of a closure in the graph of the tree. -/
theorem exists_of_ofCached (hp : ofCached c d root h = .ok p) :
    ∃ g selected files, Tree.graph h.files h.cwd ((Installation.cacheRoot c h).join d.cacheKey) = .ok g ∧
      g.select c.select = .ok selected ∧ Export.pathsOf g (g.closure selected.toList) = .ok files ∧
      p = ⟨d, (Installation.cacheRoot c h).join d.cacheKey, Export.destination root c.libDir d,
        Installation.pathTexts g selected, files, c.dryRun⟩ := by
  unfold ofCached at hp
  split at hp
  · cases hp
  obtain ⟨g, hg, hp⟩ := exists_of_bind_eq_ok hp
  obtain ⟨selected, hselect, hp⟩ := exists_of_bind_eq_ok hp
  obtain ⟨files, hpaths, hp⟩ := exists_of_bind_eq_ok hp
  cases hp
  exact ⟨g, selected, files, hg, hselect, hpaths, rfl⟩

theorem exists_graph_of_ofCached (hp : ofCached c d root h = .ok p) :
    ∃ g ids, Tree.graph h.files h.cwd p.tree = .ok g ∧ Export.pathsOf g ids = .ok p.files := by
  obtain ⟨g, selected, files, hg, -, hpaths, rfl⟩ := exists_of_ofCached hp
  exact ⟨g, _, hg, hpaths⟩

/-! ## Carrying out a plan -/

/-- What an install reports of its plan. -/
def report (p : Plan) : Installation :=
  ⟨p.dependency, p.destination, p.selected, p.files, p.dryRun⟩

/-- A plan for a dry run is only reported. -/
theorem carryOut_of_dryRun (hdry : p.dryRun = true) (h : Host) :
    Action.run p.carryOut h = (.ok p.report, h) := by
  unfold carryOut report
  rw [hdry]
  simp only [if_true]
  rfl

/-- Any other plan is carried out by the export of its files. -/
theorem carryOut_eq_export {g : ImportGraph} {ids : NodeSet} (hdry : p.dryRun = false)
    (hpaths : Export.pathsOf g ids = .ok p.files) (h : Host) :
    Action.run p.carryOut h =
      ((Action.run (Export.run p.tree p.destination g ids false) h).1.map fun _ => p.report,
        (Action.run (Export.run p.tree p.destination g ids false) h).2) := by
  unfold carryOut Export.run report
  rw [hdry, Action.run_bind, Action.run_ofExcept, hpaths]
  simp only [Bool.false_eq_true, if_false]
  rw [Action.run_bind, Action.run_bind]
  rcases Action.run (Export.copyAll p.tree p.destination p.files) h with ⟨e | x, g⟩ <;> rfl

end Plan

/-- It does not matter how many storages have been opened before. -/
theorem IsBegun.storages (hb : IsBegun c d root h) (n : Nat) :
    IsBegun c d root { h with storages := n } := by
  refine ⟨hb.dependency, hb.root, ?_, hb.cached⟩
  have hstorage := hb.storage
  rw [Installation.run_openDefault] at hstorage ⊢
  unfold Storage.openAt at hstorage ⊢
  rw [Action.run_bind, Action.run_during, Action.run_makeDirs] at hstorage ⊢
  rcases hmade : h.files.makeDirs h.cwd (Installation.cacheRoot c h) with ⟨e | x, files⟩
  · rw [hmade] at hstorage
    cases hstorage
  · rw [hmade] at hstorage
    have hfiles : files = h.files := congrArg (fun x => x.2.files) hstorage
    have hmade' : { h with storages := n }.files.makeDirs { h with storages := n }.cwd
        (Installation.cacheRoot c { h with storages := n }) = (.ok x, files) := hmade
    rw [hmade', hfiles]
    rfl

namespace Installation

variable {result : Except Failure Installation}

/-- How an install may end that makes its copies at the same time, and the host that it leaves. -/
inductive Ends (fetcher : Fetcher) (c : Config) (h : Host) : Except Failure Installation → Host → Prop
  /-- No plan is made. -/
  | refused {e : Failure} {g : Host} :
      Action.run (Plan.make fetcher c) h = (.error e, g) → Ends fetcher c h (.error e) g
  /-- The plan is for a dry run, and it is reported. -/
  | told {p : Plan} {g : Host} :
      Action.run (Plan.make fetcher c) h = (.ok p, g) → p.dryRun = true → Ends fetcher c h (.ok p.report) g
  /-- The files of the plan are exported. -/
  | exported {p : Plan} {g g' : Host} {graph : ImportGraph} {ids : NodeSet}
      {copied : Except Failure (List Path)} :
      Action.run (Plan.make fetcher c) h = (.ok p, g) → p.dryRun = false →
      Export.pathsOf graph ids = .ok p.files → Export.Ends p.tree p.destination graph ids g copied g' →
      Ends fetcher c h (copied.map fun _ => p.report) g'

/-- If the configuration names a dependency, then this is cached. -/
def IsCached (c : Config) (h : Host) : Prop :=
  ∀ d, Dependency.parse c.dependency = .ok d → h.isDir ((cacheRoot c h).join d.cacheKey) = true

/-- **If the tree is cached, an install is refused at once**, or it begins. -/
theorem refused_or_isBegun (fetcher : Fetcher) (hcwd : h.files.get? h.cwd.place = some .dir) (hc : IsCached c h) :
    (∃ e, Action.run (Plan.make fetcher c) h = (.error e, h)) ∨ ∃ d root, IsBegun c d root h := by
  cases hd : Dependency.parse c.dependency with
  | error e => exact .inl ⟨e, run_of_settle_error (IsRefused.settle_error (.inl hd))⟩
  | ok d =>
    rcases run_settled_cases (h := h) hd with ⟨e, hs⟩ | ⟨root, c', hroot, hc', hs⟩
    · refine .inl ⟨e, ?_⟩
      unfold Plan.make
      rw [Action.run_bind, hs]
    rcases hopen : Action.run (Storage.openDefault c.cacheDir) h with ⟨opened, g⟩
    rcases run_openDefault_of_cached hcwd (Dependency.isAccepted_of_parse hd).1 (hc d hd) hopen with
      ⟨e, rfl, rfl⟩ | ⟨rfl, rfl⟩
    · refine .inl ⟨e, ?_⟩
      unfold Plan.make
      rw [Action.run_bind, hs]
      simp only
      rw [Action.run_bind, hc'.cacheDir, hopen]
    · exact .inr ⟨d, root, hd, hroot, hopen, hc d hd⟩

/-- **The install that makes its copies in turn** ends in one of these ways. -/
theorem ends_run (hcwd : h.files.get? h.cwd.place = some .dir) (hc : IsCached c h) :
    Ends fetcher c h (Action.run (run fetcher c) h).1 (Action.run (run fetcher c) h).2 := by
  rw [Plan.make_bind_carryOut, Action.run_bind]
  rcases refused_or_isBegun fetcher hcwd hc with ⟨e, hmake⟩ | ⟨d, root, hb⟩
  · rw [hmake]
    exact .refused hmake
  have hmake := Plan.make_of_isBegun fetcher hb
  cases hp : Plan.ofCached c d root h with
  | error e =>
    rw [hp] at hmake
    rw [hmake]
    exact .refused hmake
  | ok p =>
    rw [hp] at hmake
    rw [hmake]
    simp only
    cases hdry : p.dryRun with
    | true =>
      rw [Plan.carryOut_of_dryRun hdry]
      exact .told hmake hdry
    | false =>
      obtain ⟨g, ids, -, hpaths⟩ := Plan.exists_graph_of_ofCached hp
      rw [Plan.carryOut_eq_export hdry hpaths]
      refine .exported hmake hdry hpaths (Export.ends_run ?_ ..)
      exact hcwd

theorem ends_of_run (hcwd : h.files.get? h.cwd.place = some .dir) (hc : IsCached c h)
    (hrun : Action.run (run fetcher c) h = (result, h')) : Ends fetcher c h result h' := by
  have hends : Ends fetcher c h (Action.run (run fetcher c) h).1 (Action.run (run fetcher c) h).2 :=
    ends_run hcwd hc
  rw [hrun] at hends
  exact hends

/-- If no plan is made, that is all. -/
theorem Ends.of_error {e : Failure} {g : Host} (hmake : Action.run (Plan.make fetcher c) h = (.error e, g))
    (hends : Ends fetcher c h result h') : result = .error e ∧ h' = g := by
  cases hends with
  | refused hmake' =>
    obtain ⟨he, rfl⟩ := Prod.mk.inj (hmake'.symm.trans hmake)
    exact ⟨congrArg _ (Except.error.inj he), rfl⟩
  | told hmake' => cases hmake'.symm.trans hmake
  | exported hmake' => cases hmake'.symm.trans hmake

/-- If a plan is made that is not for a dry run, and the install succeeds, then the files of the plan have
been exported. -/
theorem Ends.of_plan {p : Plan} {g : Host} {r : Installation}
    (hmake : Action.run (Plan.make fetcher c) h = (.ok p, g)) (hdry : p.dryRun = false)
    (hends : Ends fetcher c h result h') (hr : result = .ok r) :
    r = p.report ∧ ∃ graph ids, Export.Ends p.tree p.destination graph ids g (.ok p.files) h' := by
  cases hends with
  | refused => cases hr
  | told hmake' htold =>
    obtain ⟨hp, -⟩ := Prod.mk.inj (hmake'.symm.trans hmake)
    rw [Except.ok.inj hp, hdry] at htold
    cases htold
  | @exported p' _ _ graph ids copied hmake' _ hpaths hexport =>
    obtain ⟨hp, rfl⟩ := Prod.mk.inj (hmake'.symm.trans hmake)
    obtain rfl := Except.ok.inj hp
    cases copied with
    | error e => cases hr
    | ok paths =>
      have hsame : paths = p'.files := by
        cases hexport with
        | copied hpaths' => exact Except.ok.inj (hpaths'.symm.trans hpaths)
      rw [hsame] at hexport
      exact ⟨(Except.ok.inj hr).symm, graph, ids, hexport⟩

/-- **What the making of a plan comes to if the tree is cached**: no file changes, and once a plan is made it
is made again. -/
theorem make_of_isCached {made : Except Failure Plan} {g : Host}
    (hcwd : h.files.get? h.cwd.place = some .dir) (hc : IsCached c h)
    (hmake : Action.run (Plan.make fetcher c) h = (made, g)) :
    (g = h ∨ g = { h with storages := h.storages + 1 }) ∧ ∀ p, made = .ok p →
      Action.run (Plan.make fetcher c) g = (.ok p, { g with storages := g.storages + 1 }) ∧
        ∃ graph ids, Tree.graph h.files h.cwd p.tree = .ok graph ∧
          Export.pathsOf graph ids = .ok p.files := by
  rcases refused_or_isBegun fetcher hcwd hc with ⟨e, hrefused⟩ | ⟨d, root, hb⟩
  · obtain ⟨rfl, rfl⟩ := Prod.mk.inj (hrefused.symm.trans hmake)
    exact ⟨.inl rfl, nofun⟩
  · obtain ⟨hmade, rfl⟩ := Prod.mk.inj ((Plan.make_of_isBegun fetcher hb).symm.trans hmake)
    refine ⟨.inr rfl, fun p hp => ⟨?_, Plan.exists_graph_of_ofCached (hmade.trans hp)⟩⟩
    rw [Plan.make_of_isBegun fetcher (hb.storages _)]
    exact Prod.ext (hmade.trans hp) rfl

/-- What a dry run comes to. -/
theorem run_dryRun {made : Except Failure Plan} (hmake : Action.run (Plan.make fetcher c) h = (made, h₁)) :
    Action.run (run fetcher { c with dryRun := true }) h =
      (made.map fun p => { p.report with dryRun := true }, h₁) := by
  rw [Plan.make_bind_carryOut, Plan.make_dryRun, Action.run_bind, Action.run_map, hmake]
  cases made with
  | error e => rfl
  | ok p => exact Plan.carryOut_of_dryRun rfl h₁

/-- **A dry run predicts the install.** It changes no file. If it fails, then the install fails with the same
failure from the same host, and has done no more. If it succeeds, and so does the install from the host that it
leaves, then the two report the same, and the files that the install has written are those that the dry run has
told. This is so in whatever order the copies are made, and thus also if they are made in turn. -/
theorem dry_run_predicts (hfs : h.files.WellFormed) (hcwd : h.files.get? h.cwd.place = some .dir)
    (hc : IsCached c h) (hdry : Action.run (run fetcher { c with dryRun := true }) h = (result, h₁)) :
    (h₁.files = h.files ∧ h₁.cwd = h.cwd) ∧
    (∀ e, result = .error e → ∀ result' h', Ends fetcher { c with dryRun := false } h result' h' →
      result' = .error e ∧ h' = h₁) ∧
    (∀ r, result = .ok r → ∀ r' h', Ends fetcher { c with dryRun := false } h₁ (.ok r') h' →
      r.dryRun = true ∧ r' = { r with dryRun := false } ∧
        Export.WritesJust r.destination r.files { h₁ with storages := h₁.storages + 1 } h') ∧
    ∀ g, g = h ∨ g = h₁ → Ends fetcher { c with dryRun := false } g
      (Action.run (run fetcher { c with dryRun := false }) g).1
      (Action.run (run fetcher { c with dryRun := false }) g).2 := by
  rcases hmake : Action.run (Plan.make fetcher c) h with ⟨made, g⟩
  obtain ⟨rfl, rfl⟩ := Prod.mk.inj ((run_dryRun hmake).symm.trans hdry)
  obtain ⟨hg, hplan⟩ := make_of_isCached hcwd hc hmake
  -- The install makes the same plan, from either host.
  have hreal : ∀ {k made k'}, Action.run (Plan.make fetcher c) k = (made, k') →
      Action.run (Plan.make fetcher { c with dryRun := false }) k =
        (made.map fun p => { p with dryRun := false }, k') := by
    intro k made k' hk
    rw [Plan.make_dryRun, Action.run_map, hk]
  have hsame : g.files = h.files ∧ g.cwd = h.cwd := by
    rcases hg with rfl | rfl <;> exact ⟨rfl, rfl⟩
  refine ⟨hsame, fun e he result' h' hends => ?_, fun r hr r' h' hends => ?_, fun k hk => ?_⟩
  · cases made with
    | error e' =>
      cases he
      exact Ends.of_error (hreal hmake) hends
    | ok p => cases he
  · cases made with
    | error e' => cases hr
    | ok p =>
      cases hr
      obtain ⟨hagain, graph, ids, hgraph, hpaths⟩ := hplan p rfl
      obtain ⟨hr', graph', ids', hexport⟩ := Ends.of_plan (hreal hagain) rfl hends rfl
      exact ⟨rfl, hr', Export.writesJust_of_ends
        (Export.endsInName_of_pathsOf hfs hgraph hpaths) hexport⟩
  · rcases hk with rfl | rfl
    · exact ends_run hcwd hc
    · rcases hg with rfl | rfl
      · exact ends_run hcwd hc
      · exact ends_run (h := { h with storages := h.storages + 1 }) hcwd hc

/-- A dry run in the project of the sample tells of one file, and the install then writes that file. -/
theorem dry_run_predicts_sample :
    ∃ r h₁ h', Action.run (run (Fetcher.scripted []) { sampleConfig with dryRun := true }) sampleHost =
        (.ok r, h₁) ∧ h₁.files = sampleHost.files ∧ r.destination = ⟨"/p/src/lib/a/b@1.0.0"⟩ ∧
      r.files = [⟨"src/A.sol"⟩] ∧
      Action.run (run (Fetcher.scripted []) { sampleConfig with dryRun := false }) h₁ =
        (.ok { r with dryRun := false }, h') ∧
      Export.WritesJust r.destination r.files { h₁ with storages := h₁.storages + 1 } h' := by
  have hcwd : sampleHost.files.get? sampleHost.cwd.place = some .dir := by decide +kernel
  have hcached : IsCached sampleConfig sampleHost := by
    intro d hd
    have hparse : Dependency.parse sampleConfig.dependency = .ok ⟨"a/b", "1.0.0", "a/b@1.0.0"⟩ := by
      decide +kernel
    rw [hparse] at hd
    cases hd
    decide +kernel
  obtain ⟨hanswer, hsucceeds⟩ :
      (Action.run (run (Fetcher.scripted []) { sampleConfig with dryRun := true }) sampleHost).1.toOption.map
          (fun r => (r.destination, r.files)) = some (⟨"/p/src/lib/a/b@1.0.0"⟩, [⟨"src/A.sol"⟩]) ∧
        (Action.run (run (Fetcher.scripted []) { sampleConfig with dryRun := false })
          (Action.run (run (Fetcher.scripted []) { sampleConfig with dryRun := true })
            sampleHost).2).1.toOption.isSome = true := by decide +kernel
  rcases hdry : Action.run (run (Fetcher.scripted []) { sampleConfig with dryRun := true }) sampleHost with
    ⟨e | r, h₁⟩
  · rw [hdry] at hanswer
    cases hanswer
  rw [hdry] at hanswer hsucceeds
  obtain ⟨hdest, hfiles⟩ := Prod.mk.inj (Option.some.inj hanswer)
  obtain ⟨⟨hsame, -⟩, -, hpredicts, hruns⟩ := dry_run_predicts wellFormed_sampleFiles hcwd hcached hdry
  have hends := hruns h₁ (.inr rfl)
  rcases hrun : Action.run (run (Fetcher.scripted []) { sampleConfig with dryRun := false }) h₁ with ⟨e | r', h'⟩
  · rw [hrun] at hsucceeds
    cases hsucceeds
  rw [hrun] at hends
  obtain ⟨-, rfl, hwrites⟩ := hpredicts r rfl r' h' hends
  exact ⟨r, h₁, h', rfl, hsame, hdest, hfiles, hrun, hwrites⟩

end Installation

end SolVendor
