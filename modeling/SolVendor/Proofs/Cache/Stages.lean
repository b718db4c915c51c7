import SolVendor.Proofs.Cache.Fetch
import SolVendor.Proofs.FileSystem.WellFormed
import SolVendor.Proofs.Path.Descent
/-!
# Cache — the stages of a fetch, on any host

On a tidy host all is told by slots. Here the host is any one on which the
root of the storage is a directory (`Storage.IsSound`): the root may be
reached through links or dots, and other things may lie below it. What
matters is only that what was left at the staging path can be found, and can
be removed without the way to it.

That stays so (`IsOpen`) through all that comes before the tree is moved: the
directory of the owner is made (`IsOpen.prepare`), what is left is removed
(`IsOpen.remove`), and a confined fetcher writes, wherever it is stopped
(`IsStaged.isOpen`). The move makes the tree what was written
(`IsStaged.moves`), or it changes nothing.

If the tree is not there at the start (`Storage.Lacks`), it stays unfetched
(`IsUnfetched`) until it is moved, and an unfetched tree is not cached
(`IsUnfetched.not_isCached`).
-/

namespace SolVendor

open FileSystem

variable {h g : Host} {loc : Location} {p : Path} {e : Entry}

/-- What leads to a directory is found. -/
theorem Host.pathExists_of_isDir (hdir : h.isDir p = true) : h.pathExists p = true := by
  obtain ⟨pos, hpos, hs⟩ := isDir_iff.1 hdir
  exact pathExists_iff.2 ⟨pos, .dir, hpos, hs⟩

/-- The working directory is somewhere after any change. -/
theorem Host.get?_cwd_withFiles (h : Host) (files : FileSystem) :
    (h.withFiles files).files.get? (h.withFiles files).cwd.place = some .dir :=
  get?_nearestDir files h.cwd.place

namespace Storage

variable {s : Storage} {fetcher : Fetcher} {d : Dependency} {dir : Location}
  {res : Except Failure Unit}

/-! ## A tree that is not there -/

/-- The place of the staging path keeps its name when what stands there is removed. -/
def IsAnchored (s : Storage) (d : Dependency) (h : Host) : Prop :=
  ∀ {loc}, h.files.Names h.cwd (s.stagingPath d) loc →
    (h.withFiles (h.files.cut loc)).files.Names (h.withFiles (h.files.cut loc)).cwd
      (s.stagingPath d) loc

/-- The root of the storage is a directory. What is left at the staging path, if anything is, can be found
there and removed without the way to it. -/
structure IsSound (s : Storage) (d : Dependency) (h : Host) : Prop where
  wellFormed : h.files.WellFormed
  cwd_dir : h.files.get? h.cwd.place = some .dir
  root : ∃ r, h.files.Leads h.cwd s.root.pieces (.ofPlace r) ∧ h.files.get? r = some .dir
  found : ∀ {loc}, h.files.Names h.cwd (s.stagingPath d) loc → h.files.get? loc ≠ none →
    h.pathExists (s.stagingPath d) = true
  anchored : s.IsAnchored d h

/-- The root of the storage is a directory, and nothing has the name of the tree. What is left at the
staging path, if anything is, can be found there and removed without the way to it. -/
structure Lacks (s : Storage) (d : Dependency) (h : Host) : Prop where
  wellFormed : h.files.WellFormed
  cwd_dir : h.files.get? h.cwd.place = some .dir
  root : ∃ r, h.files.Leads h.cwd s.root.pieces (.ofPlace r) ∧ h.files.get? r = some .dir
  tree : ∀ {loc}, h.files.Names h.cwd (s.treePath d) loc → h.files.get? loc = none
  found : ∀ {loc}, h.files.Names h.cwd (s.stagingPath d) loc → h.files.get? loc ≠ none →
    h.pathExists (s.stagingPath d) = true
  anchored : s.IsAnchored d h

/-- The root is a directory, but that of the owner is not there. -/
structure IsBare (s : Storage) (d : Dependency) (h : Host) : Prop where
  wellFormed : h.files.WellFormed
  root : ∃ r, h.files.Leads h.cwd s.root.pieces (.ofPlace r) ∧ h.files.get? r = some .dir
  missing : ∀ {pos}, h.files.Leads h.cwd (s.root.pieces ++ [.ofPiece d.owner.bytes]) pos →
    h.files.standing pos ≠ some .dir

/-- It is known where the tree belongs, as far as the way there has been made. What is left at the staging path
can be found and removed without that way. -/
structure IsOpen (s : Storage) (d : Dependency) (h : Host) : Prop where
  cwd_dir : h.files.get? h.cwd.place = some .dir
  way : (∃ dir, s.Houses d dir h) ∨ s.IsBare d h
  found : ∀ {loc}, h.files.Names h.cwd (s.stagingPath d) loc →
    (∀ rel, h.files.get? (loc ++ rel) = none) ∨ h.pathExists (s.stagingPath d) = true
  anchored : s.IsAnchored d h

/-- Nothing is at the place of the tree or below. What is left at the staging path can be found and
removed without the way to it. -/
structure IsUnfetched (s : Storage) (d : Dependency) (h : Host) : Prop where
  cwd_dir : h.files.get? h.cwd.place = some .dir
  way : (∃ dir, s.Houses d dir h) ∨ s.IsBare d h
  tree : ∀ {loc}, h.files.Names h.cwd (s.treePath d) loc → ∀ rel, h.files.get? (loc ++ rel) = none
  found : ∀ {loc}, h.files.Names h.cwd (s.stagingPath d) loc →
    (∀ rel, h.files.get? (loc ++ rel) = none) ∨ h.pathExists (s.stagingPath d) = true
  anchored : s.IsAnchored d h

/-- A vacant place can be removed without the way to it. -/
theorem isAnchored_of_isVacant (hcwd : h.files.get? h.cwd.place = some .dir)
    (hvacant : s.IsVacant d h) : s.IsAnchored d h := by
  intro loc hname
  have hext : (h.files.cut loc).Extends h.files := extends_cut (hvacant hname) fun _ he => he
  rw [Host.withFiles_eq (hext _ _ hcwd)]
  exact hname.mono hext

theorem IsSound.isOpen (hs : s.IsSound d h) : s.IsOpen d h where
  cwd_dir := hs.cwd_dir
  way := by
    obtain ⟨r, hr, hdir⟩ := hs.root
    by_cases hmissing : ∀ {pos}, h.files.Leads h.cwd (s.root.pieces ++ [.ofPiece d.owner.bytes]) pos →
        h.files.standing pos ≠ some .dir
    · exact .inr ⟨hs.wellFormed, ⟨r, hr, hdir⟩, hmissing⟩
    · simp only [not_forall, not_not] at hmissing
      obtain ⟨pos, howner, hs⟩ := hmissing
      -- Where the root is a place, so is the directory of the owner.
      obtain ⟨mid, l, hmid, hw⟩ := howner.exists_of_append
      obtain rfl := hmid.unique hr
      have hlost : pos.lost = 0 := hw.lost_eq_zero rfl
      have hpos : pos = .ofPlace pos.place := congrArg (Position.mk pos.place) hlost
      rw [hpos] at howner hs
      exact .inl ⟨pos.place, howner, hs⟩
  found {loc} hname := by
    by_cases hnone : h.files.get? loc = none
    · exact .inl (hs.wellFormed.get?_append hnone)
    · exact .inr (hs.found hname hnone)
  anchored := hs.anchored

theorem IsUnfetched.isOpen (hu : s.IsUnfetched d h) : s.IsOpen d h :=
  ⟨hu.cwd_dir, hu.way, hu.found, hu.anchored⟩

theorem IsOpen.isUnfetched (ho : s.IsOpen d h)
    (htree : ∀ {loc}, h.files.Names h.cwd (s.treePath d) loc → ∀ rel, h.files.get? (loc ++ rel) = none) :
    s.IsUnfetched d h :=
  ⟨ho.cwd_dir, ho.way, htree, ho.found, ho.anchored⟩

theorem Lacks.isUnfetched (hl : s.Lacks d h) : s.IsUnfetched d h := by
  have hsound : s.IsSound d h := ⟨hl.wellFormed, hl.cwd_dir, hl.root, hl.found, hl.anchored⟩
  exact hsound.isOpen.isUnfetched fun hname => hl.wellFormed.get?_append (hl.tree hname)

/-- Only the files count, and the directory they are seen from. -/
theorem IsUnfetched.congr (hu : s.IsUnfetched d h) (hfiles : g.files = h.files) (hcwd : g.cwd = h.cwd) :
    s.IsUnfetched d g := by
  obtain ⟨hcwd', hway, htree, hfound, hanchored⟩ := hu
  have hexists : g.pathExists (s.stagingPath d) = h.pathExists (s.stagingPath d) := by
    unfold Host.pathExists
    rw [hfiles, hcwd]
  rw [← hfiles, ← hcwd] at hcwd' htree hfound
  rw [← hexists] at hfound
  refine ⟨hcwd', ?_, htree, hfound, fun {loc} hname => ?_⟩
  · rcases hway with ⟨dir, hleads, hdir⟩ | ⟨hwf, hroot, hmissing⟩
    · rw [← hfiles, ← hcwd] at hleads
      rw [← hfiles] at hdir
      exact .inl ⟨dir, hleads, hdir⟩
    · rw [← hfiles, ← hcwd] at hroot
      rw [← hfiles] at hwf
      refine .inr ⟨hwf, hroot, fun {pos} hl => ?_⟩
      rw [hfiles, hcwd] at hl
      rw [hfiles]
      exact hmissing hl
  · rw [hfiles, hcwd] at hname
    have hanchor := hanchored hname
    unfold Host.withFiles at hanchor ⊢
    rw [hfiles, hcwd]
    exact hanchor

/-- **An empty directory of all trees lacks every dependency**, unless the owner leads out of it. -/
theorem lacks_of_isEmptyCache {r : Location} (he : IsEmptyCache s.root r h) (hwf : h.files.WellFormed)
    (hd : d.IsAccepted) (hdots : d.owner ≠ "..") : s.Lacks d h := by
  have hempty : ∀ {dir n}, s.Houses d dir h → atSign ∈ n.bytes → h.files.get? (dir ++ [n]) = none := by
    intro dir n hh hn
    cases (he.isTidy.leads_owner hd hdots hh.leads).1
    obtain ⟨rel, hrel, hplace⟩ := (hd.isTreeSlot (r := r) hn).exists_eq_append
    rw [hplace]
    exact he.empty hrel
  have hstaging : ∀ {loc}, h.files.Names h.cwd (s.stagingPath d) loc → h.files.get? loc = none := by
    intro loc hname
    obtain ⟨dir, hh⟩ := exists_houses_of_names_staging hd hname
    rw [((hh.names_staging_iff hd).1 hname).1]
    exact hempty hh hd.at_mem_stagingName
  refine ⟨hwf, he.cwd_dir, ⟨r, he.leads, he.dir⟩, fun {loc} hname => ?_,
    fun {loc} hname hne => absurd (hstaging hname) hne,
    isAnchored_of_isVacant he.cwd_dir fun hname => hwf.get?_append (hstaging hname)⟩
  obtain ⟨dir, hh⟩ := exists_houses_of_names_tree hd hname
  rw [((hh.names_tree_iff hd).1 hname).1]
  exact hempty hh hd.at_mem_treeName

/-- **A tree that is unfetched is not cached.** -/
theorem IsUnfetched.not_isCached (hu : s.IsUnfetched d h) (hd : d.IsAccepted) :
    s.isCached d h = false := by
  rw [Bool.eq_false_iff]
  intro hc
  obtain ⟨pos, hpos, hs⟩ := isDir_iff.1 hc
  obtain ⟨hcheck, hl⟩ := locate_eq_ok_iff.1 hpos
  have hl := leads_pieces_of_steps hl
  rw [pieces_treePath hd, List.append_cons] at hl
  obtain ⟨mid, l, hmid, hw⟩ := hl.exists_of_append
  have hdir := hw.standing_of_ne_nil (List.cons_ne_nil _ _) (by simp)
  rcases hu.way with ⟨dir, hh⟩ | hbare
  · obtain rfl := hmid.unique hh.leads
    have hname : ∀ {e}, isTooLong d.treeName = false → h.files.get? (dir ++ [d.treeName]) = some e →
        False := by
      intro e hn he
      have hnone := hu.tree ((hh.names_tree_iff hd).2 ⟨rfl, hcheck, hn⟩) []
      rw [List.append_nil, he] at hnone
      cases hnone
    cases hw with
    | name _ _ hn he _ _ => exact hname hn he
    | link _ _ hn he _ => exact hname hn he
  · exact hbare.missing hmid hdir

/-! ## Until the fetcher is called -/

/-- Where the directory of the owner is there, nothing is made. -/
theorem Houses.prepare (hh : s.Houses d dir h) (hd : d.IsAccepted)
    (hcwd : h.files.get? h.cwd.place = some .dir) (hrun : Action.run (s.prepare d) h = (res, g)) :
    g = h := by
  obtain ⟨q, j, hparent, hq, -, -⟩ := pieces_stagingPath (s := s) hd
  unfold Storage.prepare at hrun
  rw [hparent] at hrun
  simp only [Action.run_during, Action.run_makeDirs, Prod.mk.injEq] at hrun
  obtain ⟨-, rfl⟩ := hrun
  have howner := hh.leads
  rw [hq] at howner
  obtain ⟨mid, l, hmid, hw⟩ := howner.exists_of_append
  obtain rfl := hw.eq_of_dots
  rw [makeDirs_eq_of_leads hcwd hmid
    (show h.files.standing (.ofPlace dir) = some .dir from hh.dir)]

/-- **The directory of the owner is made**, unless it is there. What is made is empty. -/
theorem IsOpen.prepare (ho : s.IsOpen d h) (hd : d.IsAccepted)
    (hrun : Action.run (s.prepare d) h = (res, g)) :
    s.IsOpen d g ∧ (res = .ok () → ∃ dir, s.Houses d dir g) ∧
      (g = h ∨ ∃ dir, s.Houses d dir g ∧ ∀ rel, rel ≠ [] → g.files.get? (dir ++ rel) = none) := by
  rcases ho.way with ⟨dir, hh⟩ | hbare
  · rw [hh.prepare hd ho.cwd_dir hrun]
    exact ⟨ho, fun _ => ⟨dir, hh⟩, .inl rfl⟩
  obtain ⟨q, j, hparent, hq, -, -⟩ := pieces_stagingPath (s := s) hd
  unfold Storage.prepare at hrun
  rw [hparent] at hrun
  simp only [Action.run_during, Action.run_makeDirs, Prod.mk.injEq] at hrun
  obtain ⟨hres, rfl⟩ := hrun
  have hadds := addsDirs_makeDirs h.files h.cwd q
  obtain ⟨r, hroot, hr⟩ := hbare.root
  rcases makeFirst_eq_or_exists h.cwd q.ancestors h.files with hsame | ⟨k, hnone, hmade⟩
  · -- If nothing is made, there is no such directory still, and that is a failure.
    have hsame : (h.files.makeDirs h.cwd q).2 = h.files := hsame
    refine ⟨by rw [hsame]; exact ho, fun hok => ?_, .inl (by rw [hsame])⟩
    have hmake : (h.files.makeDirs h.cwd q).1 = .ok () := by
      rw [hok] at hres
      cases hmk : (h.files.makeDirs h.cwd q).1 with
      | error e =>
        rw [hmk] at hres
        cases hres
      | ok u => rfl
    obtain ⟨pos, hl, hs⟩ := exists_leads_of_makeDirs ho.cwd_dir hmake
    rw [hsame] at hl hs
    have howner := hl.append_dots hs j
    rw [← hq] at howner
    exact absurd hs (hbare.missing howner)
  · -- All that is made is the directory of the owner.
    have hmade : (h.files.makeDirs h.cwd q).2.get? k = some .dir := hmade
    obtain ⟨-, n, hn, rfl⟩ :=
      eq_of_get?_makeDirs_owner ho.cwd_dir hroot hr ⟨_, hq.symm⟩ hmade hnone
    have hvacant := hbare.wellFormed.get?_append hnone
    have hbelow : ∀ rel, rel ≠ [] →
        (h.files.makeDirs h.cwd q).2.get? (r ++ [n] ++ rel) = none := by
      intro rel hrel
      rw [Option.eq_none_iff_forall_ne_some]
      intro e he
      obtain ⟨-, n', hn', heq⟩ :=
        eq_of_get?_makeDirs_owner ho.cwd_dir hroot hr ⟨_, hq.symm⟩ he (hvacant rel)
      rw [hn] at hn'
      cases hn'
      exact hrel (by simpa using heq)
    let g : Host := { h with files := (h.files.makeDirs h.cwd q).2 }
    have hh : s.Houses d (r ++ [n]) g := by
      refine ⟨?_, hmade⟩
      obtain ⟨-, q', hq', hname⟩ := hadds.added hmade hnone
      obtain ⟨-, ds, dir, m, hds, heq, hl, -, hm⟩ := names_iff.1 hname
      obtain ⟨rfl, hnm⟩ := List.append_inj' heq rfl
      cases hnm
      rw [hn]
      exact (hroot.mono hadds.extends_old).concat (hadds.extends_old _ _ hr) hm hmade (by simp)
    have hempty : s.IsVacant d g := by
      intro loc hname rel
      obtain ⟨rfl, -⟩ := (hh.names_staging_iff hd).1 hname
      rw [List.append_assoc]
      exact hbelow _ (by simp)
    have hcwd : g.files.get? g.cwd.place = some .dir := hadds.extends_old _ _ ho.cwd_dir
    exact ⟨⟨hcwd, .inl ⟨_, hh⟩, fun hname => .inl (hempty hname), isAnchored_of_isVacant hcwd hempty⟩,
      fun _ => ⟨_, hh⟩, .inr ⟨_, hh, hbelow⟩⟩

theorem IsUnfetched.prepare (hu : s.IsUnfetched d h) (hd : d.IsAccepted)
    (hrun : Action.run (s.prepare d) h = (res, g)) :
    s.IsUnfetched d g ∧ (res = .ok () → ∃ dir, s.Houses d dir g) := by
  obtain ⟨ho, hhouses, hmade⟩ := hu.isOpen.prepare hd hrun
  refine ⟨ho.isUnfetched fun {loc} hname rel => ?_, hhouses⟩
  rcases hmade with rfl | ⟨dir, hh, hempty⟩
  · exact hu.tree hname rel
  · obtain ⟨rfl, -⟩ := (hh.names_tree_iff hd).1 hname
    rw [List.append_assoc]
    exact hempty _ (by simp)

/-- **What is left at the staging path is removed.** -/
theorem IsOpen.remove {files : FileSystem} (ho : s.IsOpen d h) (hd : d.IsAccepted)
    (hrm : h.files.removeTree h.cwd (s.stagingPath d) = .ok files) :
    s.IsOpen d (h.withFiles files) ∧ s.IsVacant d (h.withFiles files) ∧
      ∃ dir, s.Houses d dir h ∧ s.Houses d dir (h.withFiles files) ∧
        files = h.files.cut (dir ++ [d.stagingName]) := by
  obtain ⟨loc, hname, rfl⟩ := removeTree_spec hrm
  have hname' := ho.anchored hname
  obtain ⟨dir, hh⟩ := exists_houses_of_names_staging hd hname
  obtain ⟨dir', hh'⟩ := exists_houses_of_names_staging hd hname'
  obtain ⟨rfl, -⟩ := (hh.names_staging_iff hd).1 hname
  obtain ⟨heq, -⟩ := (hh'.names_staging_iff hd).1 hname'
  obtain ⟨rfl, -⟩ := List.append_inj' heq rfl
  have hvacant : s.IsVacant d (h.withFiles (h.files.cut (dir ++ [d.stagingName]))) := by
    intro loc hloc rel
    obtain ⟨rfl, -⟩ := (hh'.names_staging_iff hd).1 hloc
    exact get?_cut_append hname.ne_nil rel
  have hcwd := h.get?_cwd_withFiles (h.files.cut (dir ++ [d.stagingName]))
  exact ⟨⟨hcwd, .inl ⟨dir, hh'⟩, fun hloc => .inl (hvacant hloc), isAnchored_of_isVacant hcwd hvacant⟩,
    hvacant, dir, hh, hh', rfl⟩

theorem IsUnfetched.remove {files : FileSystem} (hu : s.IsUnfetched d h) (hd : d.IsAccepted)
    (hrm : h.files.removeTree h.cwd (s.stagingPath d) = .ok files) :
    s.IsUnfetched d (h.withFiles files) ∧ s.IsVacant d (h.withFiles files) ∧
      ∃ dir, s.Houses d dir h ∧ s.Houses d dir (h.withFiles files) := by
  obtain ⟨ho, hvacant, dir, hh, hh', rfl⟩ := hu.isOpen.remove hd hrm
  refine ⟨ho.isUnfetched fun {loc} hloc rel => ?_, hvacant, dir, hh, hh'⟩
  obtain ⟨rfl, hcheck⟩ := (hh'.names_tree_iff hd).1 hloc
  have hnone := hu.tree ((hh.names_tree_iff hd).2 ⟨rfl, hcheck⟩) rel
  rw [Host.files_withFiles, get?_cut (by simp)]
  split
  · rfl
  · exact hnone

/-- Nothing is left at the staging path if nothing is found there. -/
theorem IsOpen.isVacant (ho : s.IsOpen d h) (hnot : h.pathExists (s.stagingPath d) = false) :
    s.IsVacant d h := by
  intro loc hname
  rcases ho.found hname with hnone | hfound
  · exact hnone
  · rw [hnot] at hfound
    cases hfound

theorem IsUnfetched.isVacant (hu : s.IsUnfetched d h)
    (hnot : h.pathExists (s.stagingPath d) = false) : s.IsVacant d h :=
  hu.isOpen.isVacant hnot

/-! ## While the fetcher writes -/

/-- A call of a fetcher can begin: the directory of the owner is there, and nothing is at the staging
path. -/
structure IsCleared (s : Storage) (d : Dependency) (h : Host) : Prop where
  isUnfetched : s.IsUnfetched d h
  houses : ∃ dir, s.Houses d dir h
  isVacant : s.IsVacant d h

theorem IsCleared.congr (hc : s.IsCleared d h) (hfiles : g.files = h.files) (hcwd : g.cwd = h.cwd) :
    s.IsCleared d g where
  isUnfetched := hc.isUnfetched.congr hfiles hcwd
  houses := by
    obtain ⟨dir, hh⟩ := hc.houses
    exact ⟨dir, hh.mono hcwd (by rw [hfiles]; exact (Extends.refl h.files).retains)⟩
  isVacant {loc} hname rel := by
    rw [hfiles, hcwd] at hname
    rw [hfiles]
    exact hc.isVacant hname rel

/-- Since the call has begun nothing has changed but what is at the staging path and below. The
destination is a directory, or nothing has been written. -/
structure IsStaged (s : Storage) (d : Dependency) (base h : Host) : Prop where
  keeps : base.Keeps h
  inside : ∀ {k}, h.files.get? k ≠ base.files.get? k →
    ∃ loc, base.files.Names base.cwd (s.stagingPath d) loc ∧ loc <+: k
  destination : ∀ {loc}, base.files.Names base.cwd (s.stagingPath d) loc →
    (∀ rel, h.files.get? (loc ++ rel) = none) ∨ h.files.get? loc = some .dir

/-- **A delivery stages the tree** if it changes nothing but its destination. -/
theorem isStaged_of_delivery (hh : s.Houses d dir h) (hd : d.IsAccepted)
    (hcwd : h.files.get? h.cwd.place = some .dir) (hvacant : s.IsVacant d h) (delivery : Delivery)
    (hconfined : h.IsReady (s.stagingPath d) →
      ∀ k, (Action.run (delivery.run (s.stagingPath d)) h).2.files.get? k ≠ h.files.get? k →
        ∃ loc, h.files.Names h.cwd (s.stagingPath d) loc ∧ loc <+: k) :
    s.IsStaged d h (Action.run (delivery.run (s.stagingPath d)) h).2 where
  keeps := Delivery.keeps_run hcwd delivery _
  inside {k} hk := hconfined (hh.isReady hd hcwd hvacant) k hk
  destination {loc} hname := by
    have hnone := hvacant hname
    rcases Delivery.destination_of_run hcwd delivery hname (by simpa using hnone []) with hsame | hdir
    · rw [hsame]
      exact .inl hnone
    · exact .inr hdir

/-- **A confined fetcher stages the tree**, wherever it is stopped. -/
theorem IsCleared.isStaged (hc : s.IsCleared d h) (hd : d.IsAccepted)
    (hf : fetcher.IsConfinedThroughout) (calls n : Nat) :
    s.IsStaged d h (Action.run (Delivery.write (fetcher calls d (s.stagingPath d)).strict
      (((fetcher calls d (s.stagingPath d)).writes (s.stagingPath d)).take n)) h).2 := by
  obtain ⟨dir, hh⟩ := hc.houses
  let delivery := (fetcher calls d (s.stagingPath d)).upTo n
  have hstrict : delivery.strict = (fetcher calls d (s.stagingPath d)).strict := by
    cases n with
    | zero => rfl
    | succ n => rfl
  have hends : (Action.run (delivery.run (s.stagingPath d)) h).2 =
      (Action.run (Delivery.write (fetcher calls d (s.stagingPath d)).strict
        (((fetcher calls d (s.stagingPath d)).writes (s.stagingPath d)).take n)) h).2 := by
    obtain ⟨ending, hends⟩ := delivery.run_run (s.stagingPath d) h
    rw [hends, hstrict, Delivery.writes_upTo]
  rw [← hends]
  exact isStaged_of_delivery hh hd hc.isUnfetched.cwd_dir hc.isVacant delivery fun hready =>
    hf n calls d (s.stagingPath d) h hready

/-- The directory of the owner is where it was. -/
theorem IsStaged.houses (hs : s.IsStaged d h g) (hh : s.Houses d dir h) : s.Houses d dir g :=
  hh.mono hs.keeps.cwd hs.keeps.files

/-- Outside the place of the staging tree nothing has changed. -/
theorem IsStaged.outside {k : Location} (hs : s.IsStaged d h g) (hh : s.Houses d dir h)
    (hd : d.IsAccepted) (hk : ¬ dir ++ [d.stagingName] <+: k) : g.files.get? k = h.files.get? k := by
  by_contra hne
  obtain ⟨loc, hname, hpre⟩ := hs.inside hne
  obtain ⟨rfl, -⟩ := (hh.names_staging_iff hd).1 hname
  exact hk hpre

/-- The staging tree is not the tree. -/
theorem stagingName_apart (dir rel : Location) :
    ¬ dir ++ [d.stagingName] <+: dir ++ [d.treeName] ++ rel := by
  intro hpre
  rw [List.append_assoc, List.prefix_append_right_inj, List.singleton_append,
    List.cons_prefix_cons] at hpre
  exact Dependency.not_stagesAs_self d ⟨rfl, hpre.1⟩

/-- What has been staged can be found, and removed without the way to it: what is left then is what was there
when the call began. -/
theorem IsStaged.isOpen (hs : s.IsStaged d h g) (hh : s.Houses d dir h) (hd : d.IsAccepted)
    (hcwd : h.files.get? h.cwd.place = some .dir) (hvacant : s.IsVacant d h) : s.IsOpen d g := by
  have hh' := hs.houses hh
  refine ⟨hs.keeps.cwd_dir hcwd, .inl ⟨dir, hh'⟩, fun {loc} hname => ?_, fun {loc} hname => ?_⟩
  · have hname' := (hh.names_staging_iff hd).2 ((hh'.names_staging_iff hd).1 hname)
    rcases hs.destination hname' with hnone | hdir
    · exact .inl hnone
    · exact .inr (Host.pathExists_of_isDir (hname.isDir hdir))
  · have hname' := (hh.names_staging_iff hd).2 ((hh'.names_staging_iff hd).1 hname)
    obtain ⟨rfl, -⟩ := (hh.names_staging_iff hd).1 hname'
    have hext : (g.files.cut (dir ++ [d.stagingName])).Extends h.files :=
      extends_cut (hvacant hname') fun hk he => (hs.outside hh hd hk).trans he
    have hdir : (g.files.cut (dir ++ [d.stagingName])).get? g.cwd.place = some .dir := by
      rw [hs.keeps.cwd]
      exact hext _ _ hcwd
    rw [Host.withFiles_eq hdir, hs.keeps.cwd]
    exact hname'.mono hext

/-- **A staged tree is unfetched still.** -/
theorem IsStaged.isUnfetched (hs : s.IsStaged d h g) (hc : s.IsCleared d h) (hd : d.IsAccepted) :
    s.IsUnfetched d g := by
  obtain ⟨dir, hh⟩ := hc.houses
  have ho := hs.isOpen hh hd hc.isUnfetched.cwd_dir hc.isVacant
  refine ho.isUnfetched fun {loc} hname rel => ?_
  obtain ⟨rfl, hcheck⟩ := ((hs.houses hh).names_tree_iff hd).1 hname
  rw [hs.outside hh hd (stagingName_apart dir rel)]
  exact hc.isUnfetched.tree ((hh.names_tree_iff hd).2 ⟨rfl, hcheck⟩) rel

/-! ## The move -/

/-- The tree is there, and it is what the last call of the fetcher has written: the call has ended well,
and before it nothing was at the place of the staging path or below. -/
def HoldsWritten (s : Storage) (fetcher : Fetcher) (d : Dependency) (h : Host) : Prop :=
  ∃ loc before after src, h.files.Names h.cwd (s.treePath d) loc ∧ h.files.get? loc = some .dir ∧
    Action.run (s.call fetcher d) before = (.ok .done, after) ∧ after.fetches = h.fetches ∧
    before.files.Names before.cwd (s.stagingPath d) src ∧
    (∀ rel, before.files.get? (src ++ rel) = none) ∧
    ∀ rel, h.files.get? (loc ++ rel) = after.files.get? (src ++ rel)

/-- Only the files, the directory they are seen from and the calls count. -/
theorem HoldsWritten.congr (hw : s.HoldsWritten fetcher d h) (hfiles : g.files = h.files)
    (hcwd : g.cwd = h.cwd) (hfetches : g.fetches = h.fetches) : s.HoldsWritten fetcher d g := by
  unfold HoldsWritten at hw ⊢
  rw [hfiles, hcwd, hfetches]
  exact hw

/-- A tree that has been written is cached. -/
theorem HoldsWritten.isCached (hw : s.HoldsWritten fetcher d h) : s.isCached d h = true := by
  obtain ⟨loc, -, -, -, hname, hdir, -⟩ := hw
  exact hname.isDir hdir

/-- The staged tree has been moved to a place at which nothing was. What was there when the call began is there
still. -/
structure IsMoved (s : Storage) (d : Dependency) (dir : Location) (base h g : Host) : Prop where
  cwd : g.cwd = base.cwd
  extends_base : g.files.Extends base.files
  source : base.files.Names base.cwd (s.stagingPath d) (dir ++ [d.stagingName])
  target : base.files.Names base.cwd (s.treePath d) (dir ++ [d.treeName])
  vacant : ∀ rel, base.files.get? (dir ++ [d.treeName] ++ rel) = none
  staged : h.files.get? (dir ++ [d.stagingName]) = some .dir
  files : g.files = h.files.graft (dir ++ [d.stagingName]) (dir ++ [d.treeName])
  fetches : g.fetches = h.fetches

/-- The tree is what was staged. -/
theorem IsMoved.get?_tree {h' : Host} (hm : s.IsMoved d dir h g h') (rel : Location) :
    h'.files.get? (dir ++ [d.treeName] ++ rel) = g.files.get? (dir ++ [d.stagingName] ++ rel) := by
  rw [hm.files]
  exact get?_graft_append hm.source.ne_nil hm.target.ne_nil rel

/-- **The staged tree is moved to its own place**, or nothing changes. -/
theorem IsStaged.moves (hs : s.IsStaged d h g) (hh : s.Houses d dir h) (hd : d.IsAccepted)
    (hcwd : h.files.get? h.cwd.place = some .dir) (hvacant : s.IsVacant d h)
    (htree : ∀ {loc}, h.files.Names h.cwd (s.treePath d) loc → h.files.get? loc ≠ some .dir) {g' : Host}
    (hrun : Action.run (s.place d) g = (res, g')) :
    (∃ e, res = .error (.during (.moveTree (s.stagingPath d) (s.treePath d)) e) ∧ g' = g) ∨
      res = .ok () ∧ s.IsMoved d dir h g g' := by
  have hh' := hs.houses hh
  unfold Storage.place at hrun
  simp only [Action.run_during, Prod.mk.injEq] at hrun
  obtain ⟨hres, hg⟩ := hrun
  cases hrn : g.files.rename g.cwd (s.stagingPath d) (s.treePath d) with
  | error e =>
    rw [Action.run_change, hrn] at hres hg
    exact .inl ⟨_, hres.symm, hg.symm⟩
  | ok files =>
    rw [Action.run_change, hrn] at hres hg
    subst hg
    refine .inr ⟨hres.symm, ?_⟩
    obtain ⟨src, dst, e, hsrc, hdst, he, hfiles⟩ := rename_spec hrn
    have hsrc' := (hh.names_staging_iff hd).2 ((hh'.names_staging_iff hd).1 hsrc)
    have hdst' := (hh.names_tree_iff hd).2 ((hh'.names_tree_iff hd).1 hdst)
    obtain ⟨rfl, -⟩ := (hh.names_staging_iff hd).1 hsrc'
    obtain ⟨rfl, -⟩ := (hh.names_tree_iff hd).1 hdst'
    have happart : ∀ rel, g.files.get? (dir ++ [d.treeName] ++ rel) =
        h.files.get? (dir ++ [d.treeName] ++ rel) :=
      fun rel => hs.outside hh hd (stagingName_apart dir rel)
    have hne : dir ++ [d.stagingName] ≠ dir ++ [d.treeName] := fun heq =>
      stagingName_apart (d := d) dir [] ⟨[], by rw [List.append_nil, List.append_nil, heq]⟩
    obtain rfl := (hfiles.resolve_left fun hsame => hne hsame.1).2
    obtain rfl : e = .dir := by
      rcases hs.destination hsrc' with hnone | hdir
      · have hat := hnone []
        rw [List.append_nil, he] at hat
        cases hat
      · rw [hdir] at he
        exact (Option.some.inj he).symm
    -- A directory is moved onto no file and no link, and there is no directory.
    have hnone : ∀ rel, h.files.get? (dir ++ [d.treeName] ++ rel) = none := by
      obtain ⟨hold, hbelow⟩ := vacant_of_rename_dir hrn hsrc hdst he hne
      intro rel
      by_cases hrel : rel = []
      · subst hrel
        have hold : h.files.get? (dir ++ [d.treeName]) = none ∨
            h.files.get? (dir ++ [d.treeName]) = some .dir := by
          have hat := happart []
          rw [List.append_nil] at hat
          rwa [hat] at hold
        rw [List.append_nil]
        exact hold.resolve_right (htree hdst')
      · rw [← happart rel]
        exact hbelow rel hrel
    have hext : (g.files.graft (dir ++ [d.stagingName]) (dir ++ [d.treeName])).Extends h.files := by
      refine extends_graft hsrc.ne_nil hdst.ne_nil (hvacant hsrc') (fun {rel e} he => ?_) fun hk he =>
        (hs.outside hh hd hk).trans he
      rw [hnone rel] at he
      cases he
    have hcwd' : (g.files.graft (dir ++ [d.stagingName]) (dir ++ [d.treeName])).get? g.cwd.place =
        some .dir := by
      rw [hs.keeps.cwd]
      exact hext _ _ hcwd
    show s.IsMoved d dir h g (g.withFiles _)
    rw [Host.withFiles_eq hcwd']
    exact ⟨hs.keeps.cwd, hext, hsrc', hdst', hnone, he, rfl, rfl⟩

/-- **What has been moved is the tree as it was written.** -/
theorem IsStaged.place (hs : s.IsStaged d h g) (hc : s.IsCleared d h) (hd : d.IsAccepted) {g' : Host}
    (hcall : ∃ before, Action.run (s.call fetcher d) before = (.ok .done, g) ∧
      before.files = h.files ∧ before.cwd = h.cwd)
    (hrun : Action.run (s.place d) g = (res, g')) :
    (∃ e, res = .error e ∧ g' = g) ∨ res = .ok () ∧ s.HoldsWritten fetcher d g' := by
  obtain ⟨dir, hh⟩ := hc.houses
  have htree : ∀ {loc}, h.files.Names h.cwd (s.treePath d) loc → h.files.get? loc ≠ some .dir := by
    intro loc hname
    have hnone := hc.isUnfetched.tree hname []
    rw [List.append_nil] at hnone
    rw [hnone]
    exact (Option.some_ne_none _).symm
  rcases hs.moves hh hd hc.isUnfetched.cwd_dir hc.isVacant htree hrun with ⟨e, hres, hg⟩ | ⟨hres, hm⟩
  · exact .inl ⟨_, hres, hg⟩
  refine .inr ⟨hres, ?_⟩
  obtain ⟨before, hcall, hbefore, hbcwd⟩ := hcall
  have hdir := hm.get?_tree []
  rw [List.append_nil, List.append_nil, hm.staged] at hdir
  refine ⟨dir ++ [d.treeName], before, g, dir ++ [d.stagingName], ?_, hdir, hcall, hm.fetches.symm, ?_,
    fun rel => ?_, hm.get?_tree⟩
  · rw [hm.cwd]
    exact hm.target.mono hm.extends_base
  · rw [hbefore, hbcwd]
    exact hm.source
  · rw [hbefore]
    exact hc.isVacant hm.source rel

end Storage

end SolVendor
