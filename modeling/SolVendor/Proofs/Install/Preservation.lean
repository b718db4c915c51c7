import SolVendor.Proofs.Install.DryRun
/-!
# Install — what an install leaves as it was

An install reads a tree of the cache and writes below its destination. The
two are told apart by nothing but where their paths lead: whatever the
configuration, and in whatever order the steps of the copies are taken, a
file that was there before holds its bytes still, or the path of a copy
leads to it (`Installation.keeps_files`). If the library directory is the
cache itself, then the path of each copy leads to the very file that is
copied, and that file is emptied.

Where no copy lands on a file that is copied, and no two copies land on one
place, each copy holds the bytes that the tree held before.
-/

namespace SolVendor

open FileSystem

namespace Export

variable {h h' : Host} {tree dest p : Path} {paths : List Path} {i : Nat} {k : Location}

/-- The copies have landed apart: none on a file that is copied, and no two on one place. -/
structure LandedApart (tree dest : Path) (h : Host) (paths : List Path) : Prop where
  sources : ∀ p ∈ paths, ∀ {pos}, h.files.Leads h.cwd (tree.join p).pieces pos →
    ¬ Covers h dest paths pos.place
  targets : ∀ p ∈ paths, ∀ q ∈ paths, ∀ {pos}, h.files.Leads h.cwd (dest.join p).pieces pos →
    h.files.Leads h.cwd (dest.join q).pieces pos → p = q

/-- **A file is where it was, with the same bytes**, or the path of a copy leads to it. -/
theorem entryAt_of_steps (hsteps : Steps dest paths h h') {q : Path} {bytes : List UInt8}
    (hq : h.files.entryAt h.cwd q = .ok (.file bytes)) :
    h'.files.entryAt h'.cwd q = .ok (.file bytes) ∨
      ∃ p ∈ paths, ∃ pos, h'.files.Leads h'.cwd (dest.join p).pieces pos ∧ h.files.Leads h.cwd q.pieces pos := by
  obtain ⟨pos, hpos, hs⟩ := entryAt_eq_ok_iff.1 hq
  obtain ⟨hcheck, hl⟩ := locate_eq_ok_iff.1 hpos
  obtain ⟨hplace, hk⟩ := get?_of_standing_file hs
  by_cases hcov : Covers h' dest paths pos.place
  · obtain ⟨p, hp, hl'⟩ := hcov
    rw [← hplace] at hl'
    exact .inr ⟨p, hp, pos, hl', leads_pieces_of_steps hl⟩
  · refine .inl (entryAt_eq_ok_iff.2 ⟨pos, locate_eq_ok_iff.2 ⟨hcheck, ?_⟩, ?_⟩)
    · exact Leads.of_keeps hl (keeps_of_steps hsteps)
    · rw [hplace]
      exact get?_of_steps hsteps hk hcov

/-- **A copy that has landed apart from the others** holds the bytes of the tree. -/
theorem LandedApart.entryAt (ha : LandedApart tree dest h' paths) (hnodup : paths.Nodup)
    (hend : EndsInName (dest.join p)) (hi : paths[i]? = some p)
    (hl : HasLanded h tree dest paths i p k h') (hk : h.Keeps h') {bytes : List UInt8}
    (hread : h.files.entryAt h.cwd (tree.join p) = .ok (.file bytes)) :
    h'.files.entryAt h'.cwd (dest.join p) = .ok (.file bytes) := by
  have hmem := List.mem_of_getElem? hi
  obtain ⟨pos, hpos, hs⟩ := entryAt_eq_ok_iff.1 hread
  have hothers : ¬ Covers h' dest (paths.eraseIdx i) k := by
    rintro ⟨q, hq, hl'⟩
    obtain ⟨j, hne, hj⟩ := List.mem_eraseIdx_iff_getElem?.1 hq
    obtain rfl := ha.targets p hmem q (List.mem_of_getElem? hj) hl.target.leads hl'
    exact hne ((List.getElem?_inj (List.getElem?_eq_some_iff.1 hj).1 hnodup).1 (hj.trans hi.symm))
  have hsource : ¬ Covers h' dest paths pos.place := by
    refine ha.sources p hmem ?_
    exact Leads.of_keeps (leads_pieces_of_steps (locate_eq_ok_iff.1 hpos).2) hk
  refine entryAt_eq_ok_iff.2 ⟨.ofPlace k, locate_eq_ok_iff.2 ⟨hl.target.check, ?_⟩,
    hl.copies hpos hs hothers hsource⟩
  exact leads_steps_of_pieces hl.target.leads (.inl hend.slash)

end Export

namespace Installation

variable {h h' : Host} {fetcher : Fetcher} {c : Config} {d : Dependency} {result : Except Failure Installation}

/-- **The files of an install are where they were, with the same bytes**, but for those that the path of a
copy leads to, which is that of a selected file or of one that it needs. This is so of every file that any
path leads to, and so of those of the cached tree; it is so whether the install succeeds or fails. And if
the install succeeds, and its copies have landed apart, then each of them holds the bytes that the tree held
before. -/
theorem keeps_files (hfs : h.files.WellFormed) (hcwd : h.files.get? h.cwd.place = some .dir)
    (hd : Dependency.parse c.dependency = .ok d)
    (hc : h.isDir ((cacheRoot c h).join d.cacheKey) = true) (hends : Ends fetcher c h result h') :
    (∀ q bytes, h.files.entryAt h.cwd q = .ok (.file bytes) →
      h'.files.entryAt h'.cwd q = .ok (.file bytes) ∨
        c.dryRun = false ∧ ∃ root g selected i p pos, Project.findRoot h c.projectRoot = .ok root ∧
          Tree.graph h.files h.cwd ((cacheRoot c h).join d.cacheKey) = .ok g ∧
          g.select c.select = .ok selected ∧ i ∈ g.closure selected.toList ∧ g.path? i = some p ∧
          h'.files.Leads h'.cwd ((Export.destination root c.libDir d).join p).pieces pos ∧
          h.files.Leads h.cwd q.pieces pos) ∧
      ∀ r, result = .ok r → r.dryRun = false →
        Export.LandedApart ((cacheRoot c h).join d.cacheKey) r.destination h' r.files →
        ∀ p ∈ r.files, ∃ bytes,
          h.files.entryAt h.cwd (((cacheRoot c h).join d.cacheKey).join p) = .ok (.file bytes) ∧
            h'.files.entryAt h'.cwd (r.destination.join p) = .ok (.file bytes) := by
  have hcached : IsCached c h := by
    intro d' hd'
    obtain rfl := Except.ok.inj (hd.symm.trans hd')
    exact hc
  -- Before the first copy no file has changed.
  have hsame : ∀ {made : Except Failure Plan} {g : Host}, Action.run (Plan.make fetcher c) h = (made, g) →
      g.files = h.files ∧ g.cwd = h.cwd := by
    intro made g hmake
    rcases (make_of_isCached hcwd hcached hmake).1 with rfl | rfl <;> exact ⟨rfl, rfl⟩
  have hkept : ∀ {g : Host} {q : Path} {bytes : List UInt8}, g.files = h.files ∧ g.cwd = h.cwd →
      h.files.entryAt h.cwd q = .ok (.file bytes) → g.files.entryAt g.cwd q = .ok (.file bytes) := by
    rintro g q bytes ⟨hfiles, hat⟩ hq
    rw [hfiles, hat, hq]
  cases hends with
  | refused hmake => exact ⟨fun q bytes hq => .inl (hkept (hsame hmake) hq), fun r hr => by cases hr⟩
  | @told p _ hmake hdry =>
    refine ⟨fun q bytes hq => .inl (hkept (hsame hmake) hq), fun r hr hr' => ?_⟩
    obtain rfl := Except.ok.inj hr
    have hr' : p.dryRun = false := hr'
    rw [hdry] at hr'
    cases hr'
  | @exported plan _ _ graph ids copied hmake hdry hfiles hexport =>
    rcases refused_or_isBegun fetcher hcwd hcached with ⟨e, hrefused⟩ | ⟨d', root, hb⟩
    · cases hrefused.symm.trans hmake
    obtain rfl := Except.ok.inj (hd.symm.trans hb.dependency)
    obtain ⟨hmade, rfl⟩ := Prod.mk.inj ((Plan.make_of_isBegun fetcher hb).symm.trans hmake)
    obtain ⟨g, selected, files, hg, hselect, hpaths, rfl⟩ := Plan.exists_of_ofCached hmade
    have hnames : ∀ p ∈ files, Export.EndsInName ((Export.destination root c.libDir d).join p) :=
      Export.endsInName_of_pathsOf hfs hg hpaths
    have hsteps := Export.steps_of_ends hnames hfiles hexport
    refine ⟨fun q bytes hq => ?_, fun r hr _ hapart p hp => ?_⟩
    · refine (Export.entryAt_of_steps hsteps hq).imp_right fun ⟨p, hp, pos, hl, hl'⟩ => ?_
      obtain ⟨i, hi, hip⟩ := (Export.mem_of_pathsOf hpaths).1 hp
      exact ⟨hdry, root, g, selected, i, p, pos, hb.root, hg, hselect, hi, hip, hl, hl'⟩
    · cases copied with
      | error e => cases hr
      | ok paths =>
        obtain rfl := Except.ok.inj hr
        obtain rfl := Except.ok.inj ((Export.pathsOf_of_ends hexport).symm.trans hfiles)
        obtain ⟨rels, todo, hselects, htodo⟩ := Export.exists_selects hfs hg hpaths
        obtain ⟨names, hmem, rfl⟩ := List.mem_map.1 (htodo ▸ hp)
        obtain ⟨bytes, hbytes⟩ := hselects.reads names hmem
        obtain ⟨i, hi⟩ := List.mem_iff_getElem?.1 hp
        obtain ⟨k, hl⟩ := Export.exists_hasLanded_of_ends hnames hexport hi
        have hnodup := Export.nodup_of_pathsOf hpaths hselects.graph.path?_inj
        exact ⟨bytes, hbytes,
          hapart.entryAt hnodup (hnames _ hp) hi hl (Export.keeps_of_steps hsteps) hbytes⟩

/-! ## An install beside the cache -/

def sampleRun : Except Failure Installation × Host :=
  Action.run (run (Fetcher.scripted []) sampleConfig) sampleHost

/-- The paths of the graph of the cached tree. -/
theorem path_of_sample {g : ImportGraph} {i : NodeId} {p : Path}
    (hg : Tree.graph sampleHost.files sampleHost.cwd ⟨"/cache/a/b@1.0.0"⟩ = .ok g)
    (hp : g.path? i = some p) : p = ⟨"src/A.sol"⟩ := by
  have hpaths : (Tree.graph sampleHost.files sampleHost.cwd ⟨"/cache/a/b@1.0.0"⟩).toOption.map
      (fun g => g.nodes.toList.map SourceFile.path) = some [⟨"src/A.sol"⟩] := by decide +kernel
  rw [hg] at hpaths
  have hpaths : g.nodes.toList.map SourceFile.path = [⟨"src/A.sol"⟩] := Option.some.inj hpaths
  obtain ⟨node, hnode, rfl⟩ := ImportGraph.path?_eq_some_iff.1 hp
  have hmem : node.path ∈ g.nodes.toList.map SourceFile.path :=
    List.mem_map_of_mem (Array.mem_toList_iff.2 (Array.mem_of_getElem? hnode))
  rw [hpaths] at hmem
  exact List.mem_singleton.1 hmem

/-- The tree is elsewhere than the library directory, so the file is as it was, and so is the copy. -/
theorem keeps_files_sample :
    (sampleRun.1.toOption.map Installation.files) = some [⟨"src/A.sol"⟩] ∧
      sampleRun.2.files.entryAt sampleRun.2.cwd ⟨"/cache/a/b@1.0.0/src/A.sol"⟩ = .ok (.file [7]) ∧
      sampleRun.2.files.entryAt sampleRun.2.cwd ⟨"/p/src/lib/a/b@1.0.0/src/A.sol"⟩ =
        .ok (.file [7]) := by
  have hd : Dependency.parse sampleConfig.dependency = .ok ⟨"a/b", "1.0.0", "a/b@1.0.0"⟩ := by
    decide +kernel
  have hc : sampleHost.isDir ((cacheRoot sampleConfig sampleHost).join
      (Dependency.cacheKey ⟨"a/b", "1.0.0", "a/b@1.0.0"⟩)) = true := by
    decide +kernel
  have hcwd : sampleHost.files.get? sampleHost.cwd.place = some .dir := by decide +kernel
  have hrun : Action.run (run (Fetcher.scripted []) sampleConfig) sampleHost =
      (sampleRun.1, sampleRun.2) := Prod.mk.eta.symm
  have htree : (cacheRoot sampleConfig sampleHost).join
      (Dependency.cacheKey ⟨"a/b", "1.0.0", "a/b@1.0.0"⟩) = ⟨"/cache/a/b@1.0.0"⟩ := by
    decide +kernel
  have hread : sampleHost.files.entryAt sampleHost.cwd ⟨"/cache/a/b@1.0.0/src/A.sol"⟩ =
      .ok (.file [7]) := by decide +kernel
  have hcached : IsCached sampleConfig sampleHost := by
    intro d hd'
    obtain rfl := Except.ok.inj (hd.symm.trans hd')
    exact hc
  obtain ⟨hkept, hcopied⟩ :=
    keeps_files wellFormed_sampleFiles hcwd hd hc (ends_of_run hcwd hcached hrun)
  rw [htree] at hkept hcopied
  -- What the run comes to: its answer, and where the paths of the file and of its copy lead.
  obtain ⟨hanswer, hsource, htarget⟩ :
      sampleRun.1.toOption.map (fun r => (r.destination, r.files, r.dryRun)) =
        some (⟨"/p/src/lib/a/b@1.0.0"⟩, [⟨"src/A.sol"⟩], false) ∧
      sampleRun.2.files.walk .find maxLinks sampleRun.2.cwd
        (Path.mk "/cache/a/b@1.0.0/src/A.sol").pieces =
          .ok (.found (.ofPlace ["cache", "a", "b@1.0.0", "src", "A.sol"])) ∧
      sampleRun.2.files.walk .find maxLinks sampleRun.2.cwd
        (Path.mk "/p/src/lib/a/b@1.0.0/src/A.sol").pieces =
          .ok (.found (.ofPlace ["p", "src", "lib", "a", "b@1.0.0", "src", "A.sol"])) := by
    decide +kernel
  have hsource := fun {pos} (hl : sampleRun.2.files.Leads sampleRun.2.cwd _ pos) =>
    hl.unique (walk_find_eq_ok_iff.1 hsource)
  have htarget := fun {pos} (hl : sampleRun.2.files.Leads sampleRun.2.cwd _ pos) =>
    hl.unique (walk_find_eq_ok_iff.1 htarget)
  rcases hr : sampleRun.1 with e | r
  · rw [hr] at hanswer
    cases hanswer
  rw [hr] at hanswer
  obtain ⟨hdest, hpaths, hdry⟩ : r.destination = ⟨"/p/src/lib/a/b@1.0.0"⟩ ∧
      r.files = [⟨"src/A.sol"⟩] ∧ r.dryRun = false := by
    simpa using Option.some.inj hanswer
  have hjoin : (Path.mk "/p/src/lib/a/b@1.0.0").join ⟨"src/A.sol"⟩ =
      ⟨"/p/src/lib/a/b@1.0.0/src/A.sol"⟩ := by decide +kernel
  have hjoin' : (Path.mk "/cache/a/b@1.0.0").join ⟨"src/A.sol"⟩ =
      ⟨"/cache/a/b@1.0.0/src/A.sol"⟩ := by decide +kernel
  have hplaces : Position.ofPlace ["cache", "a", "b@1.0.0", "src", "A.sol"] ≠
      .ofPlace ["p", "src", "lib", "a", "b@1.0.0", "src", "A.sol"] := by decide
  refine ⟨congrArg some hpaths, ?_, ?_⟩
  · rcases hkept _ _ hread with hentry | ⟨-, root, g, -, i, p, pos, hroot, hg, -, -, hp, hl, hl'⟩
    · exact hentry
    · obtain rfl := path_of_sample hg hp
      have hroot' : root = ⟨"/p"⟩ := by
        have heval : (Project.findRoot sampleHost sampleConfig.projectRoot).toOption = some ⟨"/p"⟩ := by
          decide +kernel
        rw [hroot] at heval
        exact Option.some.inj heval
      have hdest' : Export.destination ⟨"/p"⟩ sampleConfig.libDir ⟨"a/b", "1.0.0", "a/b@1.0.0"⟩ =
          ⟨"/p/src/lib/a/b@1.0.0"⟩ := by decide +kernel
      rw [hroot', hdest', hjoin] at hl
      have hold : pos = .ofPlace ["cache", "a", "b@1.0.0", "src", "A.sol"] :=
        hl'.unique (walk_find_eq_ok_iff.1 (by decide +kernel))
      exact absurd (hold.symm.trans (htarget hl)) hplaces
  · have hapart : Export.LandedApart ⟨"/cache/a/b@1.0.0"⟩ r.destination sampleRun.2 r.files := by
      rw [hdest, hpaths]
      refine ⟨?_, ?_⟩
      · intro p hp pos hl
        obtain rfl := List.mem_singleton.1 hp
        rw [hjoin'] at hl
        rintro ⟨q, hq, hl'⟩
        obtain rfl := List.mem_singleton.1 hq
        rw [hjoin] at hl'
        rw [hsource hl] at hl'
        exact absurd (htarget hl') hplaces
      · intro p hp q hq pos _ _
        rw [List.mem_singleton.1 hp, List.mem_singleton.1 hq]
    obtain ⟨bytes, hbytes, hentry⟩ := hcopied r hr hdry hapart ⟨"src/A.sol"⟩ (by simp [hpaths])
    rw [hjoin', hread] at hbytes
    rw [hdest, hjoin] at hentry
    cases hbytes
    exact hentry

end Installation

end SolVendor
