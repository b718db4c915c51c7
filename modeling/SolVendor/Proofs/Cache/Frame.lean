import SolVendor.Proofs.Cache.Fetch
import SolVendor.Proofs.Host.Touching
/-!
# Cache — what a storage touches

Opening a storage and fetching touch the path of the tree and the staging
path, and so the directories on the way to them, and nothing else
(`isTouched_openAt`, `isTouched_fetch`). That is so on any host and however
the fetch ends, as long as the call of the fetcher touches no more than the
destination that it is given (`Storage.CallsWithin`). A confined fetcher
that finds its destination ready keeps to that (`CallsWithin.of_isConfined`).

Where these paths lead may change while the storage works, for its root may
lead through one of them. If it does not (`Storage.IsApart`), all that
changes is at two fixed places (`IsApart.changesTrees`), but for the
directories that are made first on the way to them (`Storage.AddsWay`).
-/

namespace SolVendor.Storage

open FileSystem Host

variable {s : Storage} {fetcher : Fetcher} {d : Dependency} {h g : Host} {dir k : Location}
  {p : Path}

/-- Where a storage writes for a dependency. -/
def sites (s : Storage) (d : Dependency) : List Path := [s.treePath d, s.stagingPath d]

theorem mem_sites : p ∈ s.sites d ↔ p = s.treePath d ∨ p = s.stagingPath d := by
  unfold sites
  rw [List.mem_cons, List.mem_singleton]

theorem treePath_mem_sites : s.treePath d ∈ s.sites d := mem_sites.2 (.inl rfl)

theorem stagingPath_mem_sites : s.stagingPath d ∈ s.sites d := mem_sites.2 (.inr rfl)

/-- Calling the fetcher touches no more than the destination that it is given. -/
def CallsWithin (s : Storage) (fetcher : Fetcher) (d : Dependency) (h : Host) : Prop :=
  h.IsTouched [s.stagingPath d] (Action.run (s.call fetcher d) h).2

/-- **A confined fetcher keeps to a destination that is ready.** -/
theorem CallsWithin.of_isConfined (hf : fetcher.IsConfined) (hr : h.IsReady (s.stagingPath d)) :
    s.CallsWithin fetcher d h := by
  let calls := s.callCount h
  let before : Host := { h with fetches := h.fetches ++ [⟨s.handle, d, s.stagingPath d⟩] }
  have hready : before.IsReady (s.stagingPath d) := ⟨hr.cwd_dir, hr.no_slash, hr.above, hr.vacant⟩
  have hkeeps := Delivery.keeps_run (h := before) hr.cwd_dir (fetcher calls d (s.stagingPath d))
    (s.stagingPath d)
  have hcwd := hkeeps.cwd
  have hrun : Action.run (s.call fetcher d) h =
      Action.run ((fetcher calls d (s.stagingPath d)).run (s.stagingPath d)) before := rfl
  have hstart : h.IsTouched [s.stagingPath d] before := .of_eq rfl rfl
  unfold CallsWithin
  rw [hrun]
  refine hstart.trans (Touches.change ?_ fun k hk => ?_).isTouched
  · rw [settle_eq_self (hkeeps.files.get?_dir hr.cwd_dir), hcwd]
  · exact ⟨_, List.mem_singleton_self _, hf calls d (s.stagingPath d) before hready k hk⟩

/-- So it is for a call of a storage on a tidy host. -/
theorem callsWithin_of_isTidy {r : Location} {h₀ before : Host} (hf : fetcher.IsConfined)
    (ht : IsTidy s.root r h₀ h) (hd : d.IsAccepted) (hdots : d.owner ≠ "..")
    (hrun : Action.run (s.prepare d >>= fun _ => s.sweep d) h = (.ok (), before)) :
    s.CallsWithin fetcher d before := by
  obtain ⟨ht', -, hready⟩ := prepare_sweep_spec ht hd hdots hrun
  obtain ⟨hp, hvacant⟩ := hready rfl
  exact .of_isConfined hf (hp.houses.isReady hd ht'.cwd_dir hvacant)

/-! ## What each stage touches -/

/-- **Opening a storage touches the way to its trees.** -/
theorem isTouched_openAt (hd : d.IsAccepted) (hp : p = s.root) (h : Host) :
    h.IsTouched (s.sites d) (Action.run (openAt p) h).2 := by
  subst hp
  have hroot : s.root.pieces <+: (s.treePath d).pieces := by
    rw [pieces_treePath hd]
    exact List.prefix_append _ _
  exact (IsTouched.makeDirs treePath_mem_sites hroot h).during.bind fun _ _ => .of_eq rfl rfl

theorem isTouched_prepare (h : Host) : h.IsTouched (s.sites d) (Action.run (s.prepare d) h).2 := by
  unfold prepare
  split
  · rename_i q hq
    exact (IsTouched.makeDirs treePath_mem_sites (Path.prefix_of_parent? hq) h).during
  · exact .refl _ h

theorem isTouched_sweep (h : Host) : h.IsTouched (s.sites d) (Action.run (s.sweep d) h).2 :=
  (IsTouched.removeTree stagingPath_mem_sites h).during

theorem CallsWithin.isTouched (hc : s.CallsWithin fetcher d h) :
    h.IsTouched (s.sites d) (Action.run (s.call fetcher d) h).2 :=
  IsTouched.mono hc fun _ hp => List.mem_singleton.1 hp ▸ stagingPath_mem_sites

theorem isTouched_place (h : Host) : h.IsTouched (s.sites d) (Action.run (s.place d) h).2 :=
  (IsTouched.rename stagingPath_mem_sites treePath_mem_sites h).during

theorem isTouched_discard (h : Host) : h.IsTouched (s.sites d) (Action.run (s.discard d) h).2 := by
  unfold discard
  simp only [Action.run_bind, Action.run_attempt, Action.run_pure]
  exact .removeTree stagingPath_mem_sites h

/-- **A fetch does nothing, or it makes the directory for the tree and goes on from there**, where it
touches the path of the tree and the staging path. -/
theorem isTouched_fetch_of_prepare
    (hf : ∀ {before}, Action.run (s.prepare d >>= fun _ => s.sweep d) h = (.ok (), before) →
      s.CallsWithin fetcher d before) :
    (Action.run (s.fetch fetcher d) h).2 = h ∨
      (Action.run (s.prepare d) h).2.IsTouched (s.sites d) (Action.run (s.fetch fetcher d) h).2 := by
  have hready : ∀ {res before}, Action.run (s.prepare d >>= fun _ => s.sweep d) h = (res, before) →
      (Action.run (s.prepare d) h).2.IsTouched (s.sites d) before := by
    intro res before hrun
    rcases Action.run_bind_cases hrun with ⟨e, hprep, -⟩ | ⟨u, g, hprep, hsweep⟩
    · rw [hprep]
      exact .refl _ _
    · have hswept := isTouched_sweep (s := s) (d := d) g
      rw [hsweep] at hswept
      rw [hprep]
      exact hswept
  rcases hrun : Action.run (s.fetch fetcher d) h with ⟨path, g⟩
  rcases fetch_cases hrun with rfl | ⟨e, hfails⟩ | ⟨before, after, ended, hbefore, hcall, hend⟩
  · exact .inl rfl
  · exact .inr (hready hfails)
  · refine .inr ?_
    have hcalled := (hf hbefore).isTouched
    rw [hcall] at hcalled
    have hafter := (hready hbefore).trans hcalled
    rcases hend with ⟨e, -, rfl⟩ | ⟨-, res, hplace⟩ | ⟨cause, -, res, hdiscard⟩ | ⟨-, hfiles, hcwd⟩
    · exact hafter
    · have hplaced := isTouched_place (s := s) (d := d) after
      rw [hplace] at hplaced
      exact hafter.trans hplaced
    · have hdiscarded := isTouched_discard (s := s) (d := d) after
      rw [hdiscard] at hdiscarded
      exact hafter.trans hdiscarded
    · exact hafter.trans (.of_eq hfiles hcwd)

/-- **A fetch touches the path of the tree and the staging path.** -/
theorem isTouched_fetch
    (hf : ∀ {before}, Action.run (s.prepare d >>= fun _ => s.sweep d) h = (.ok (), before) →
      s.CallsWithin fetcher d before) :
    h.IsTouched (s.sites d) (Action.run (s.fetch fetcher d) h).2 := by
  rcases isTouched_fetch_of_prepare hf with heq | ht
  · rw [heq]
    exact .refl _ h
  · exact (isTouched_prepare h).trans ht

/-! ## Two fixed places -/

/-- The files without the tree and the staging tree in a directory. -/
def withoutTrees (d : Dependency) (dir : Location) (fs : FileSystem) : FileSystem :=
  (fs.cut (dir ++ [d.treeName])).cut (dir ++ [d.stagingName])

theorem get?_withoutTrees {fs : FileSystem} (htree : ¬ dir ++ [d.treeName] <+: k)
    (hstaging : ¬ dir ++ [d.stagingName] <+: k) : (withoutTrees d dir fs).get? k = fs.get? k := by
  unfold withoutTrees
  rw [get?_cut_of_apart hstaging, get?_cut_of_apart htree]

theorem get?_withoutTrees_of_below {fs : FileSystem}
    (hk : dir ++ [d.treeName] <+: k ∨ dir ++ [d.stagingName] <+: k) :
    (withoutTrees d dir fs).get? k = none := by
  have hne : ∀ {n}, dir ++ [n] <+: k → k ≠ [] := by
    rintro n hn rfl
    simp at hn
  unfold withoutTrees
  by_cases hstaging : dir ++ [d.stagingName] <+: k
  · rw [get?_cut (hne hstaging), if_pos hstaging]
  · have htree := hk.resolve_right hstaging
    rw [get?_cut_of_apart hstaging, get?_cut (hne htree), if_pos htree]

/-- What is left are entries of the files. -/
theorem apart_of_get?_withoutTrees {fs : FileSystem} {e : Entry}
    (he : (withoutTrees d dir fs).get? k = some e) :
    (¬ dir ++ [d.treeName] <+: k ∧ ¬ dir ++ [d.stagingName] <+: k) ∧ fs.get? k = some e := by
  have hout : ¬ (dir ++ [d.treeName] <+: k ∨ dir ++ [d.stagingName] <+: k) := by
    intro hk
    rw [get?_withoutTrees_of_below hk] at he
    cases he
  obtain ⟨htree, hstaging⟩ := not_or.1 hout
  rw [get?_withoutTrees htree hstaging] at he
  exact ⟨⟨htree, hstaging⟩, he⟩

theorem extends_withoutTrees (fs : FileSystem) : fs.Extends (withoutTrees d dir fs) :=
  fun _ _ he => (apart_of_get?_withoutTrees he).2

/-- All that changes is at the places of the tree and of the staging tree in a directory, or below. -/
structure ChangesTrees (d : Dependency) (dir : Location) (h g : Host) : Prop where
  cwd : g.cwd = h.cwd
  outside : ∀ {k}, ¬ dir ++ [d.treeName] <+: k → ¬ dir ++ [d.stagingName] <+: k →
    g.files.get? k = h.files.get? k

/-- A directory houses the tree of a dependency, and neither the way to it nor the working directory is
in the tree or the staging tree. -/
structure IsApart (s : Storage) (d : Dependency) (dir : Location) (h : Host) : Prop where
  apart : s.Houses d dir { h with files := withoutTrees d dir h.files }
  cwd_dir : (withoutTrees d dir h.files).get? h.cwd.place = some .dir

theorem IsApart.houses (ha : s.IsApart d dir h) : s.Houses d dir h :=
  ha.apart.mono rfl (extends_withoutTrees h.files).retains

/-- The way stays when the trees change. -/
theorem IsApart.of_changesTrees (ha : s.IsApart d dir h) (hc : ChangesTrees d dir h g) :
    s.IsApart d dir g := by
  have hext : (withoutTrees d dir g.files).Extends (withoutTrees d dir h.files) := by
    intro k e he
    obtain ⟨⟨htree, hstaging⟩, he⟩ := apart_of_get?_withoutTrees he
    rw [get?_withoutTrees htree hstaging, hc.outside htree hstaging, he]
  refine ⟨ha.apart.mono hc.cwd hext.retains, ?_⟩
  rw [hc.cwd]
  exact hext _ _ ha.cwd_dir

/-- What the sites name is in the directory that houses the tree. -/
theorem Houses.eq_of_names_of_mem_sites {loc : Location} (hh : s.Houses d dir h) (hd : d.IsAccepted)
    (hp : p ∈ s.sites d) (hname : h.files.Names h.cwd p loc) :
    loc = dir ++ [d.treeName] ∨ loc = dir ++ [d.stagingName] := by
  rcases mem_sites.1 hp with rfl | rfl
  · exact .inl ((hh.names_tree_iff hd).1 hname).1
  · exact .inr ((hh.names_staging_iff hd).1 hname).1

/-- So is what is vacant on the way to one of them. -/
theorem Houses.eq_of_names_above {q : Path} {loc : Location} (hh : s.Houses d dir h)
    (hd : d.IsAccepted) (hp : p ∈ s.sites d) (hq : q.pieces <+: p.pieces)
    (hname : h.files.Names h.cwd q loc) (hnone : h.files.get? loc = none) :
    loc = dir ++ [d.treeName] ∨ loc = dir ++ [d.stagingName] := by
  obtain ⟨cs, n, hpieces, hl, hn⟩ : ∃ cs n, p.pieces = cs ++ [.name n] ∧
      h.files.Leads h.cwd cs (.ofPlace dir) ∧ (n = d.treeName ∨ n = d.stagingName) := by
    rcases mem_sites.1 hp with rfl | rfl
    · refine ⟨_, d.treeName, ?_, hh.leads, .inl rfl⟩
      rw [pieces_treePath hd, List.append_assoc]
      rfl
    · obtain ⟨q, hpieces, hl⟩ := hh.exists_pieces_staging hd
      exact ⟨q.pieces, d.stagingName, hpieces, hl, .inr rfl⟩
  rw [hpieces] at hq
  rcases List.prefix_concat_iff.1 hq with heq | hpre
  · obtain ⟨-, ds, dir', m, hds, rfl, hl', -, -⟩ := names_iff.1 hname
    rw [heq] at hds
    obtain ⟨rfl, hlast⟩ := List.append_inj' hds rfl
    cases hlast
    cases hl.unique hl'
    exact hn.imp (congrArg fun n => dir ++ [n]) (congrArg fun n => dir ++ [n])
  · obtain ⟨-, e, he⟩ := hname.of_leads (.refl _) hl hpre
    rw [hnone] at he
    cases he

/-- One change at the sites changes the trees. -/
theorem IsApart.changesTrees_of_touches (ha : s.IsApart d dir h) (hd : d.IsAccepted)
    (ht : Touches (s.sites d) h g) : ChangesTrees d dir h g := by
  cases ht with
  | keep files cwd =>
    refine ⟨cwd, fun _ _ => ?_⟩
    rw [files]
  | make hp hq hname hnone files cwd =>
    refine ⟨cwd, fun {k} htree hstaging => ?_⟩
    have hloc := ha.houses.eq_of_names_above hd hp hq hname hnone
    rw [files, get?_put_of_ne_nil hname.ne_nil, if_neg]
    rintro rfl
    exact hloc.elim (fun h => htree (h ▸ List.prefix_rfl)) fun h => hstaging (h ▸ List.prefix_rfl)
  | change cwd inside =>
    have hout : ∀ {k}, ¬ dir ++ [d.treeName] <+: k → ¬ dir ++ [d.stagingName] <+: k →
        g.files.get? k = h.files.get? k := by
      intro k htree hstaging
      refine Classical.not_not.1 fun hk => ?_
      obtain ⟨p, hp, loc, hname, hpre⟩ := inside k hk
      rcases ha.houses.eq_of_names_of_mem_sites hd hp hname with rfl | rfl
      · exact htree hpre
      · exact hstaging hpre
    obtain ⟨⟨htree, hstaging⟩, hdir⟩ := apart_of_get?_withoutTrees ha.cwd_dir
    refine ⟨?_, hout⟩
    rw [cwd, settle_eq_self]
    rw [hout htree hstaging, hdir]

/-- **All that changes is at two fixed places**, if the way to them is not through what is there. -/
theorem IsApart.changesTrees (ha : s.IsApart d dir h) (hd : d.IsAccepted)
    (ht : h.IsTouched (s.sites d) g) : ChangesTrees d dir h g := by
  induction ht with
  | refl => exact ⟨rfl, fun _ _ => rfl⟩
  | tail _ hstep ih =>
    have hlast := (ha.of_changesTrees ih).changesTrees_of_touches hd hstep
    exact ⟨hlast.cwd.trans ih.cwd, fun htree hstaging =>
      (hlast.outside htree hstaging).trans (ih.outside htree hstaging)⟩

/-! ## Directories on the way -/

/-- All that is new are directories on the way to the tree. -/
structure AddsWay (s : Storage) (d : Dependency) (h g : Host) : Prop where
  cwd : g.cwd = h.cwd
  extends_old : g.files.Extends h.files
  added : ∀ {k e}, g.files.get? k = some e → h.files.get? k = none → e = .dir ∧
    ∃ q : Path, q.pieces <+: s.root.pieces ++ [.ofPiece d.owner.bytes] ∧ g.files.Names g.cwd q k

theorem AddsWay.refl (s : Storage) (d : Dependency) (h : Host) : s.AddsWay d h h where
  cwd := rfl
  extends_old := .refl _
  added he hnone := by
    rw [hnone] at he
    cases he

theorem AddsWay.trans {g' : Host} (ha : s.AddsWay d h g) (ha' : s.AddsWay d g g') : s.AddsWay d h g' where
  cwd := ha'.cwd.trans ha.cwd
  extends_old := ha'.extends_old.trans ha.extends_old
  added {k e} he hnone := by
    cases hk : g.files.get? k with
    | none => exact ha'.added he hk
    | some e' =>
      obtain ⟨hdir, q, hq, hname⟩ := ha.added hk hnone
      rw [ha'.extends_old _ _ hk] at he
      rw [ha'.cwd]
      exact ⟨Option.some.inj he ▸ hdir, q, hq, hname.mono ha'.extends_old⟩

/-- Directories that have been made above the tree. -/
theorem AddsWay.of_addsDirs {q : Path} (hq : q.pieces <+: s.root.pieces ++ [.ofPiece d.owner.bytes])
    (hcwd : g.cwd = h.cwd) (hadds : h.files.AddsDirs h.cwd q.ancestors g.files) :
    s.AddsWay d h g where
  cwd := hcwd
  extends_old := hadds.extends_old
  added he hnone := by
    obtain ⟨hdir, p, hp, hname⟩ := hadds.added he hnone
    rw [hcwd]
    exact ⟨hdir, p, (Path.prefix_of_mem_ancestors hp).trans hq, hname⟩

/-- **Preparing a fetch makes the way to the tree.** -/
theorem addsWay_prepare (hd : d.IsAccepted) (h : Host) : s.AddsWay d h (Action.run (s.prepare d) h).2 := by
  obtain ⟨q, k, hparent, hq, -, -⟩ := pieces_stagingPath (s := s) hd
  unfold prepare
  rw [hparent]
  simp only
  rw [Action.run_during, Action.run_makeDirs]
  exact .of_addsDirs (hq ▸ List.prefix_append _ _) rfl (addsDirs_makeDirs _ _ _)

/-- All that changes is the tree and the staging tree in a directory, and what is new besides are
directories on the way to them. -/
structure ChangesCache (s : Storage) (d : Dependency) (dir : Location) (h g : Host) : Prop where
  cwd : g.cwd = h.cwd
  inside : ∀ {k}, g.files.get? k ≠ h.files.get? k →
    dir ++ [d.treeName] <+: k ∨ dir ++ [d.stagingName] <+: k ∨
      h.files.get? k = none ∧ g.files.get? k = some .dir ∧
        ∃ q : Path, q.pieces <+: s.root.pieces ++ [.ofPiece d.owner.bytes] ∧ g.files.Names g.cwd q k

theorem AddsWay.changesCache (ha : s.AddsWay d h g) : s.ChangesCache d dir h g where
  cwd := ha.cwd
  inside {k} hk := by
    cases hold : h.files.get? k with
    | some e => exact absurd ((ha.extends_old _ _ hold).trans hold.symm) hk
    | none =>
      cases hnew : g.files.get? k with
      | none => exact absurd (hnew.trans hold.symm) hk
      | some e =>
        obtain ⟨rfl, hq⟩ := ha.added hnew hold
        exact .inr (.inr ⟨rfl, rfl, hq⟩)

/-- **First the way is made, and then only the trees change.** -/
theorem IsApart.changesCache {w : Host} (ha : s.IsApart d dir w) (hd : d.IsAccepted)
    (hway : s.AddsWay d h w) (ht : w.IsTouched (s.sites d) g) : s.ChangesCache d dir h g := by
  have hc := ha.changesTrees hd ht
  refine ⟨hc.cwd.trans hway.cwd, fun {k} hk => ?_⟩
  by_cases htree : dir ++ [d.treeName] <+: k
  · exact .inl htree
  by_cases hstaging : dir ++ [d.stagingName] <+: k
  · exact .inr (.inl hstaging)
  have hsame := hc.outside htree hstaging
  rw [hsame] at hk
  have hnew : s.ChangesCache d dir h w := hway.changesCache
  rcases hnew.inside hk with hin | hin | ⟨hnone, hnew, q, hq, hname⟩
  · exact absurd hin htree
  · exact absurd hin hstaging
  · -- The way does not lead through the trees, so the name is as it was.
    obtain ⟨hname, -⟩ := hname.of_leads (extends_withoutTrees w.files) ha.apart.leads hq
    have hext : g.files.Extends (withoutTrees d dir w.files) := by
      intro k e he
      obtain ⟨⟨htree, hstaging⟩, he⟩ := apart_of_get?_withoutTrees he
      rw [hc.outside htree hstaging, he]
    rw [hc.cwd]
    exact .inr (.inr ⟨hnone, hsame.trans hnew, q, hq, hname.mono hext⟩)

end SolVendor.Storage
