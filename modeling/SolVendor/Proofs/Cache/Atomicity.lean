import SolVendor.Proofs.Cache.Frame
import SolVendor.Proofs.Cache.Integrity
import SolVendor.Proofs.Cache.Stages
/-!
# Cache — a fetch is done, or not done

A fetch ends with the tree as its one call of the fetcher has written it,
or it leaves what was at the path of the tree as it was; and beside the tree
and the staging tree it makes no more than directories on the way to them
(`fetch_atomic`). That is so whatever was left at either path before, on
any host on which the root of the storage is a directory and what is left
at the staging path can be found and removed without the way to it
(`Storage.IsSound`). Without links, that is so unless the root leads through
the tree or the staging tree, or the working directory is in one of them
(`isSound_of_isApart`).
-/

namespace SolVendor.Storage

open FileSystem

variable {s : Storage} {fetcher : Fetcher} {d : Dependency} {dir : Location} {h g base after : Host}
  {res : Except Failure Unit}

/-! ## What a fetch is said to do -/

/-- What is at the path of the tree is as it was. -/
def KeepsTree (s : Storage) (d : Dependency) (h g : Host) : Prop :=
  ∀ {loc}, h.files.Names h.cwd (s.treePath d) loc ∨ g.files.Names g.cwd (s.treePath d) loc →
    ∀ rel, g.files.get? (loc ++ rel) = h.files.get? (loc ++ rel)

/-- All that changes is at the path of the tree or at the staging path, and what is new besides are
directories on the way to them. -/
def ChangesOnly (s : Storage) (d : Dependency) (h g : Host) : Prop :=
  ∀ {k}, g.files.get? k ≠ h.files.get? k →
    (∃ p ∈ s.sites d, ∃ loc, g.files.Names g.cwd p loc ∧ loc <+: k) ∨
      h.files.get? k = none ∧ g.files.get? k = some .dir ∧
        ∃ q : Path, q.pieces <+: s.root.pieces ++ [.ofPiece d.owner.bytes] ∧ g.files.Names g.cwd q k

/-! ## Before the call -/

/-- What stands apart from the way to it can be removed. -/
theorem IsApart.isAnchored (ha : s.IsApart d dir h) (hd : d.IsAccepted) : s.IsAnchored d h := by
  intro loc hname
  obtain ⟨rfl, hcheck, hn⟩ := (ha.houses.names_staging_iff hd).1 hname
  have hext : (h.files.cut (dir ++ [d.stagingName])).Extends (withoutTrees d dir h.files) := by
    intro k e he
    obtain ⟨⟨-, hstaging⟩, he⟩ := apart_of_get?_withoutTrees he
    rw [get?_cut_of_apart hstaging, he]
  rw [Host.withFiles_eq (hext _ _ ha.cwd_dir)]
  have hh : s.Houses d dir { h with files := h.files.cut (dir ++ [d.stagingName]) } :=
    ha.apart.mono rfl hext.retains
  exact (hh.names_staging_iff hd).2 ⟨rfl, hcheck, hn⟩

/-- **A storage is sound** if no link is left at the staging path, and neither the way to the directory of
the owner nor the working directory is in the tree or the staging tree. -/
theorem isSound_of_isApart (hd : d.IsAccepted) (hwf : h.files.WellFormed)
    (hcwd : h.files.get? h.cwd.place = some .dir)
    (hroot : ∃ r, h.files.Leads h.cwd s.root.pieces (.ofPlace r) ∧ h.files.get? r = some .dir)
    (hlink : ∀ {loc target}, h.files.Names h.cwd (s.stagingPath d) loc →
      h.files.get? loc ≠ some (.link target))
    (hapart : ∀ {dir}, s.Houses d dir h → s.IsApart d dir h) : s.IsSound d h where
  wellFormed := hwf
  cwd_dir := hcwd
  root := hroot
  found {loc} hname hne := by
    obtain ⟨e, he⟩ := Option.ne_none_iff_exists'.1 hne
    obtain ⟨-, -, -, -, -, hslash⟩ := pieces_stagingPath (s := s) hd
    have hl := hname.leads he fun target hte => hlink hname (hte ▸ he)
    exact pathExists_iff.2
      ⟨.ofPlace loc, e, locate_eq_ok_iff.2 ⟨hname.1, leads_steps_of_pieces hl (.inl hslash)⟩, he⟩
  anchored {loc} hname := by
    obtain ⟨dir, hh⟩ := exists_houses_of_names_staging hd hname
    exact (hapart hh).isAnchored hd hname

/-- A vacant staging path leads nowhere. -/
theorem IsVacant.pathExists_eq (hvacant : s.IsVacant d h) (hh : s.Houses d dir h) (hd : d.IsAccepted) :
    h.pathExists (s.stagingPath d) = false := by
  rw [Bool.eq_false_iff]
  intro hexists
  obtain ⟨pos, e, hpos, -⟩ := pathExists_iff.1 hexists
  obtain ⟨hcheck, hl⟩ := locate_eq_ok_iff.1 hpos
  obtain ⟨q, hpieces, hq⟩ := hh.exists_pieces_staging hd
  have hl := leads_pieces_of_steps hl
  rw [hpieces] at hl
  obtain ⟨mid, l, hmid, hw⟩ := hl.exists_of_append
  obtain rfl := hmid.unique hq
  have hnone : ∀ {e}, isTooLong d.stagingName = false →
      h.files.get? (dir ++ [d.stagingName]) = some e → False := by
    intro e hn he
    have hat := hvacant ((hh.names_staging_iff hd).2 ⟨rfl, hcheck, hn⟩) []
    rw [List.append_nil, he] at hat
    cases hat
  cases hw with
  | name _ _ hn he _ _ => exact hnone hn he
  | link _ _ hn he _ => exact hnone hn he

/-- **Removing what is left at the staging path** changes nothing, or vacates the place. -/
theorem IsOpen.removeTree_cases (ho : s.IsOpen d h) (hh : s.Houses d dir h) (hd : d.IsAccepted)
    (hrun : Action.run (Action.removeTree (s.stagingPath d)) h = (res, g)) :
    (∃ e, res = .error e ∧ g = h ∧
        ∀ {loc}, h.files.Names h.cwd (s.stagingPath d) loc → h.files.get? loc ≠ some .dir) ∨
      res = .ok () ∧ s.IsOpen d g ∧ s.Houses d dir g ∧ s.IsVacant d g ∧
        (g = h ∨ h.pathExists (s.stagingPath d) = true ∧
          g = h.withFiles (h.files.cut (dir ++ [d.stagingName])) ∧
          g.files.Names g.cwd (s.stagingPath d) (dir ++ [d.stagingName])) := by
  unfold Action.removeTree at hrun
  rw [Action.run_bind, Action.run_observe] at hrun
  simp only at hrun
  cases hexists : h.pathExists (s.stagingPath d) with
  | false =>
    rw [hexists] at hrun
    cases hrun
    exact .inr ⟨rfl, ho, hh, ho.isVacant hexists, .inl rfl⟩
  | true =>
    rw [hexists, if_pos rfl, Action.run_change] at hrun
    cases hrm : h.files.removeTree h.cwd (s.stagingPath d) with
    | error e =>
      rw [hrm] at hrun
      cases hrun
      refine .inl ⟨_, rfl, rfl, fun {loc} hname hdir => ?_⟩
      obtain ⟨-, -, -, -, -, hslash⟩ := pieces_stagingPath (s := s) hd
      rw [removeTree_of_dir hname hslash hdir] at hrm
      cases hrm
    | ok files =>
      rw [hrm] at hrun
      cases hrun
      obtain ⟨ho', hvacant, dir', hh', hh'', rfl⟩ := ho.remove hd hrm
      obtain rfl := hh.unique hh'
      obtain ⟨loc, hname, -⟩ := removeTree_spec hrm
      obtain ⟨rfl, -⟩ := (hh.names_staging_iff hd).1 hname
      exact .inr ⟨rfl, ho', hh'', hvacant, .inr ⟨rfl, rfl, ho.anchored hname⟩⟩

/-- No directory is at the path of the tree. -/
def HasNoTree (s : Storage) (d : Dependency) (h : Host) : Prop :=
  ∀ {loc}, h.files.Names h.cwd (s.treePath d) loc → h.files.get? loc ≠ some .dir

theorem hasNoTree_of_isCached (hcached : s.isCached d h = false) : s.HasNoTree d h := by
  intro loc hname hdir
  have hc : s.isCached d h = true := hname.isDir hdir
  rw [hcached] at hc
  cases hc

/-- **Making the way to the tree** changes nothing that is there. -/
theorem IsOpen.prepare_changes (ho : s.IsOpen d h) (hd : d.IsAccepted)
    (hrun : Action.run (s.prepare d) h = (res, g)) :
    s.ChangesOnly d h g ∧ s.KeepsTree d h g ∧ (s.HasNoTree d h → s.HasNoTree d g) := by
  have hway := addsWay_prepare (s := s) hd h
  rw [hrun] at hway
  have hchanges : s.ChangesOnly d h g := by
    intro k hk
    cases hold : h.files.get? k with
    | some e => exact absurd ((hway.extends_old _ _ hold).trans hold.symm) hk
    | none =>
      cases hnew : g.files.get? k with
      | none => exact absurd (hnew.trans hold.symm) hk
      | some e =>
        obtain ⟨rfl, hq⟩ := hway.added hnew hold
        exact .inr ⟨rfl, rfl, hq⟩
  obtain ⟨-, -, rfl | ⟨dir, hh, hempty⟩⟩ := ho.prepare hd hrun
  · exact ⟨hchanges, fun _ _ => rfl, id⟩
  · -- The directory has just been made, so nothing is in it, and nothing was.
    have hnone : ∀ {loc}, g.files.Names g.cwd (s.treePath d) loc →
        ∀ rel, g.files.get? (loc ++ rel) = none := by
      intro loc hname rel
      obtain ⟨rfl, -⟩ := (hh.names_tree_iff hd).1 hname
      rw [List.append_assoc]
      exact hempty _ (by simp)
    refine ⟨hchanges, fun {loc} hname rel => ?_, fun _ {loc} hname hdir => ?_⟩
    · have hname : g.files.Names g.cwd (s.treePath d) loc := by
        refine hname.elim (fun hname => ?_) id
        rw [hway.cwd]
        exact hname.mono hway.extends_old
      cases hold : h.files.get? (loc ++ rel) with
      | none => exact hnone hname rel
      | some e =>
        have hnew := hway.extends_old _ _ hold
        rw [hnone hname rel] at hnew
        cases hnew
    · have hat := hnone hname []
      rw [List.append_nil, hdir] at hat
      cases hat

/-- The fetcher can be called on the host that has been reached. -/
structure IsReached (s : Storage) (d : Dependency) (dir : Location) (h base : Host) : Prop where
  cwd_dir : base.files.get? base.cwd.place = some .dir
  houses : s.Houses d dir base
  vacant : s.IsVacant d base
  no_tree : s.HasNoTree d base
  changes : s.ChangesOnly d h base
  keeps_tree : s.KeepsTree d h base
  names : ∀ {loc}, h.files.Names h.cwd (s.treePath d) loc → base.files.Names base.cwd (s.treePath d) loc

/-- **When what was left has been removed**, the fetcher can be called. -/
theorem isReached_of_cut (hfiles : g.files = h.files.cut (dir ++ [d.stagingName]))
    (hcwd : g.files.get? g.cwd.place = some .dir) (hh : s.Houses d dir h) (hh' : s.Houses d dir g)
    (hd : d.IsAccepted) (hvacant : s.IsVacant d g)
    (hname : g.files.Names g.cwd (s.stagingPath d) (dir ++ [d.stagingName])) (hno : s.HasNoTree d h) :
    s.IsReached d dir h g := by
  have hout : ∀ {k}, ¬ dir ++ [d.stagingName] <+: k → g.files.get? k = h.files.get? k := by
    intro k hk
    rw [hfiles, get?_cut_of_apart hk]
  have hsame : ∀ {loc}, g.files.Names g.cwd (s.treePath d) loc ↔ h.files.Names h.cwd (s.treePath d) loc :=
    (hh'.names_tree_iff hd).trans (hh.names_tree_iff hd).symm
  have htree : ∀ {loc}, h.files.Names h.cwd (s.treePath d) loc → ∀ rel,
      g.files.get? (loc ++ rel) = h.files.get? (loc ++ rel) := by
    intro loc hloc rel
    obtain ⟨rfl, -⟩ := (hh.names_tree_iff hd).1 hloc
    exact hout (stagingName_apart dir rel)
  refine ⟨hcwd, hh', hvacant, fun {loc} hloc hdir => ?_, fun {k} hk => ?_,
    fun {loc} hloc => htree (hloc.elim id hsame.1), fun hloc => hsame.2 hloc⟩
  · have hat := htree (hsame.1 hloc) []
    rw [List.append_nil] at hat
    exact hno (hsame.1 hloc) (hat ▸ hdir)
  · refine .inl ⟨_, stagingPath_mem_sites, _, hname, ?_⟩
    exact Classical.not_not.1 fun hapart => hk (hout hapart)

/-- **Until the call** the way to the tree has been made, and what was left at the staging path has been
removed, or it was not possible; and nothing else has changed. -/
theorem IsSound.prepare_sweep (hs : s.IsSound d h) (hd : d.IsAccepted) (hno : s.HasNoTree d h)
    (hrun : Action.run (s.prepare d >>= fun _ => s.sweep d) h = (res, g)) :
    (∃ e, res = .error e) ∧ s.ChangesOnly d h g ∧ s.KeepsTree d h g ∨
      res = .ok () ∧ ∃ dir, s.IsReached d dir h g := by
  have hway := addsWay_prepare (s := s) hd h
  rcases Action.run_bind_cases hrun with ⟨e, hprep, rfl⟩ | ⟨⟨⟩, w, hprep, hsweep⟩
  · obtain ⟨hchanges, hkeeps, -⟩ := hs.isOpen.prepare_changes hd hprep
    exact .inl ⟨⟨e, rfl⟩, hchanges, hkeeps⟩
  obtain ⟨hchanges, hkeeps, hnone⟩ := hs.isOpen.prepare_changes hd hprep
  obtain ⟨ho, hhouses, hmade⟩ := hs.isOpen.prepare hd hprep
  obtain ⟨dir, hh⟩ := hhouses rfl
  rw [hprep] at hway
  have hnames : ∀ {loc}, h.files.Names h.cwd (s.treePath d) loc → w.files.Names w.cwd (s.treePath d) loc := by
    intro loc hname
    rw [hway.cwd]
    exact hname.mono hway.extends_old
  unfold sweep at hsweep
  rcases hrm : Action.run (Action.removeTree (s.stagingPath d)) w with ⟨res', g'⟩
  simp only [Action.run_during, hrm, Prod.mk.injEq] at hsweep
  obtain ⟨rfl, rfl⟩ := hsweep
  rcases ho.removeTree_cases hh hd hrm with ⟨e, rfl, rfl, -⟩ |
    ⟨rfl, ho', hh', hvacant, rfl | ⟨hexists, rfl, hname⟩⟩
  · exact .inl ⟨⟨_, rfl⟩, hchanges, hkeeps⟩
  · exact .inr ⟨rfl, dir, ho'.cwd_dir, hh', hvacant, hnone hno, hchanges, hkeeps, hnames⟩
  · -- What was left has not just been made, so nothing has.
    obtain rfl : w = h := by
      refine hmade.resolve_right ?_
      rintro ⟨dir', hh'', hempty⟩
      obtain rfl := hh.unique hh''
      have hleft : s.IsVacant d w := by
        intro loc hname rel
        obtain ⟨rfl, -⟩ := (hh.names_staging_iff hd).1 hname
        rw [List.append_assoc]
        exact hempty _ (by simp)
      rw [hleft.pathExists_eq hh hd] at hexists
      cases hexists
    exact .inr ⟨rfl, dir, isReached_of_cut rfl ho'.cwd_dir hh hh' hd hvacant hname hno⟩

/-! ## The call, and what comes after it -/

/-- What has changed before the call and what changes from then on, if that keeps the way. -/
theorem IsReached.changesOnly (hr : s.IsReached d dir h base) (hk : base.Keeps g)
    (hin : ∀ {k}, g.files.get? k ≠ base.files.get? k →
      ∃ p ∈ s.sites d, ∃ loc, base.files.Names base.cwd p loc ∧ loc <+: k) : s.ChangesOnly d h g := by
  have hnames : ∀ {p loc}, base.files.Names base.cwd p loc → g.files.Names g.cwd p loc := by
    intro p loc hname
    rw [hk.cwd]
    exact hname.retained hk.files
  intro k hchanged
  by_cases hsame : g.files.get? k = base.files.get? k
  · rw [hsame] at hchanged
    rcases hr.changes hchanged with ⟨p, hp, loc, hname, hpre⟩ | ⟨hnone, hdir, q, hq, hname⟩
    · exact .inl ⟨p, hp, loc, hnames hname, hpre⟩
    · exact .inr ⟨hnone, hsame.trans hdir, q, hq, hnames hname⟩
  · obtain ⟨p, hp, loc, hname, hpre⟩ := hin hsame
    exact .inl ⟨p, hp, loc, hnames hname, hpre⟩

/-- **If all that changes from the call on is at the staging path**, the tree is as it was. -/
theorem IsReached.keepsTree (hr : s.IsReached d dir h base) (hd : d.IsAccepted) (hk : base.Keeps g)
    (hin : ∀ {k}, g.files.get? k ≠ base.files.get? k → dir ++ [d.stagingName] <+: k) :
    s.KeepsTree d h g := by
  have hh' : s.Houses d dir g := hr.houses.mono hk.cwd hk.files
  intro loc hloc rel
  have hname : base.files.Names base.cwd (s.treePath d) loc :=
    hloc.elim hr.names fun hname => (hr.houses.names_tree_iff hd).2 ((hh'.names_tree_iff hd).1 hname)
  obtain ⟨rfl, -⟩ := (hr.houses.names_tree_iff hd).1 hname
  rw [← hr.keeps_tree (.inr hname) rel]
  exact Classical.not_not.1 fun hne => stagingName_apart dir rel (hin hne)

/-- The call of a confined fetcher stages the tree. -/
theorem IsReached.isStaged {ended : Except Failure Ending} (hr : s.IsReached d dir h base) (hd : d.IsAccepted)
    (hf : fetcher.IsConfined) (hrun : Action.run (s.call fetcher d) base = (ended, after)) :
    (∃ ending, ended = .ok ending) ∧ s.IsStaged d base after := by
  let called : Host := { base with fetches := base.fetches ++ [⟨s.handle, d, s.stagingPath d⟩] }
  let delivery := fetcher (s.callCount base) d (s.stagingPath d)
  have hcall : Action.run (s.call fetcher d) base = Action.run (delivery.run (s.stagingPath d)) called := rfl
  have hstaged : s.IsStaged d called (Action.run (delivery.run (s.stagingPath d)) called).2 :=
    isStaged_of_delivery (h := called) ⟨hr.houses.leads, hr.houses.dir⟩ hd hr.cwd_dir hr.vacant delivery
      fun hready => hf (s.callCount base) d (s.stagingPath d) called hready
  obtain ⟨ending, hends⟩ := delivery.run_run (s.stagingPath d) called
  rw [hcall] at hrun
  rw [hrun] at hstaged hends
  exact ⟨⟨ending, congrArg Prod.fst hends⟩, ⟨hstaged.keeps.cwd, hstaged.keeps.files⟩, hstaged.inside,
    hstaged.destination⟩

/-- What has been staged is at the staging path. -/
theorem IsReached.inside {k : Location} (hr : s.IsReached d dir h base) (hd : d.IsAccepted)
    (hs : s.IsStaged d base after) (hk : after.files.get? k ≠ base.files.get? k) :
    base.files.Names base.cwd (s.stagingPath d) (dir ++ [d.stagingName]) ∧ dir ++ [d.stagingName] <+: k := by
  obtain ⟨loc, hname, hpre⟩ := hs.inside hk
  obtain ⟨rfl, -⟩ := (hr.houses.names_staging_iff hd).1 hname
  exact ⟨hname, hpre⟩

/-- **A call whose tree is not moved** changes nothing but what is at the staging path. -/
theorem IsReached.staged (hr : s.IsReached d dir h base) (hd : d.IsAccepted) (hs : s.IsStaged d base after)
    (hfiles : g.files = after.files) (hcwd : g.cwd = after.cwd) :
    s.ChangesOnly d h g ∧ s.KeepsTree d h g := by
  have hk : base.Keeps g := by
    refine ⟨hcwd.trans hs.keeps.cwd, ?_⟩
    rw [hfiles]
    exact hs.keeps.files
  refine ⟨hr.changesOnly hk fun {k} hne => ?_, hr.keepsTree hd hk fun {k} hne => ?_⟩
  · rw [hfiles] at hne
    obtain ⟨hname, hpre⟩ := hr.inside hd hs hne
    exact ⟨_, stagingPath_mem_sites, _, hname, hpre⟩
  · rw [hfiles] at hne
    exact (hr.inside hd hs hne).2

/-- **What a failed call has written is gone**, and all is as before the call. -/
theorem IsReached.discard (hr : s.IsReached d dir h base) (hd : d.IsAccepted) (hs : s.IsStaged d base after)
    (hrun : Action.run (s.discard d) after = (res, g)) :
    res = .ok () ∧ s.IsVacant d g ∧ g.pathExists (s.stagingPath d) = false ∧
      s.ChangesOnly d h g ∧ s.KeepsTree d h g := by
  have hh := hs.houses hr.houses
  have ho := hs.isOpen hr.houses hd hr.cwd_dir hr.vacant
  unfold Storage.discard at hrun
  rcases hrm : Action.run (Action.removeTree (s.stagingPath d)) after with ⟨res', g'⟩
  rw [Action.run_bind, Action.run_attempt, hrm] at hrun
  obtain ⟨rfl, rfl⟩ := Prod.mk.inj hrun
  refine ⟨rfl, ?_⟩
  rcases ho.removeTree_cases hh hd hrm with ⟨e, -, rfl, hnot⟩ | ⟨-, -, hh', hvacant, rfl | ⟨-, rfl, hname⟩⟩
  · -- Only where nothing has been written is there nothing to remove.
    have hvacant : s.IsVacant d g' := by
      intro loc hname
      have hname' := (hr.houses.names_staging_iff hd).2 ((hh.names_staging_iff hd).1 hname)
      exact (hs.destination hname').resolve_right (hnot hname)
    exact ⟨hvacant, hvacant.pathExists_eq hh hd, hr.staged hd hs rfl rfl⟩
  · exact ⟨hvacant, hvacant.pathExists_eq hh hd, hr.staged hd hs rfl rfl⟩
  · have hsame : ∀ k, (after.files.cut (dir ++ [d.stagingName])).get? k = base.files.get? k := by
      intro k
      by_cases hk : dir ++ [d.stagingName] <+: k
      · obtain ⟨rel, rfl⟩ := hk
        have hname' := (hr.houses.names_staging_iff hd).2 ((hh'.names_staging_iff hd).1 hname)
        rw [get?_cut_append hname.ne_nil, hr.vacant hname' rel]
      · rw [get?_cut_of_apart hk, hs.outside hr.houses hd hk]
    have hcwd : (after.files.cut (dir ++ [d.stagingName])).get? after.cwd.place = some .dir := by
      rw [hsame, hs.keeps.cwd]
      exact hr.cwd_dir
    have hk : base.Keeps (after.withFiles (after.files.cut (dir ++ [d.stagingName]))) := by
      rw [Host.withFiles_eq hcwd]
      refine ⟨hs.keeps.cwd, fun k e he => .inl ?_⟩
      exact (hsame k).trans he
    exact ⟨hvacant, hvacant.pathExists_eq hh' hd, hr.changesOnly hk fun hne => absurd (hsame _) hne,
      hr.keepsTree hd hk fun hne => absurd (hsame _) hne⟩

/-- **The tree that has been moved** is what the call has written, and the staging path is vacant. -/
theorem IsReached.moved (hr : s.IsReached d dir h base) (hd : d.IsAccepted) (hs : s.IsStaged d base after)
    (hm : s.IsMoved d dir base after g) :
    s.ChangesOnly d h g ∧ s.IsVacant d g ∧ g.pathExists (s.stagingPath d) = false ∧
      g.files.Names g.cwd (s.treePath d) (dir ++ [d.treeName]) ∧
      g.files.get? (dir ++ [d.treeName]) = some .dir := by
  have hk : base.Keeps g := ⟨hm.cwd, hm.extends_base.retains⟩
  have hh : s.Houses d dir g := hr.houses.mono hk.cwd hk.files
  have hdir := hm.get?_tree []
  rw [List.append_nil, List.append_nil, hm.staged] at hdir
  have hout : ∀ {k}, ¬ dir ++ [d.treeName] <+: k →
      g.files.get? k = if dir ++ [d.stagingName] <+: k then none else after.files.get? k := by
    intro k hk
    rw [hm.files, get?_graft_of_apart hm.source.ne_nil hk]
  have hvacant : s.IsVacant d g := by
    intro loc hname rel
    obtain ⟨rfl, -⟩ := (hh.names_staging_iff hd).1 hname
    have hapart : ¬ dir ++ [d.treeName] <+: dir ++ [d.stagingName] ++ rel := by
      intro hpre
      rw [List.append_assoc, List.prefix_append_right_inj, List.singleton_append,
        List.cons_prefix_cons] at hpre
      exact Dependency.not_stagesAs_self d ⟨rfl, hpre.1.symm⟩
    rw [hout hapart, if_pos (List.prefix_append _ _)]
  refine ⟨hr.changesOnly hk fun {k} hne => ?_, hvacant, hvacant.pathExists_eq hh hd, ?_, hdir⟩
  · by_cases htree : dir ++ [d.treeName] <+: k
    · exact ⟨_, treePath_mem_sites, _, hm.target, htree⟩
    · refine ⟨_, stagingPath_mem_sites, _, hm.source, Classical.not_not.1 fun hstaging => hne ?_⟩
      rw [hout htree, if_neg hstaging, hs.outside hr.houses hd hstaging]
  · rw [hm.cwd]
    exact hm.target.mono hm.extends_base

/-! ## The whole fetch -/

/-- **A dependency that is asked for by its text** is read and then fetched, if its lock is not poisoned. -/
theorem run_getDependency {text : String}
    (hlock : ∀ d, Dependency.parse text = .ok d → s.isPoisoned d h = false) :
    Action.run (s.getDependency fetcher text) h =
      Action.run (do
        let d ← Action.ofExcept (Dependency.parse text)
        return (d, ← s.fetch fetcher d)) h := by
  unfold getDependency
  rw [Action.run_bind, Action.run_bind, Action.run_ofExcept]
  cases hd : Dependency.parse text with
  | error e => rfl
  | ok d =>
    simp only
    rw [Action.run_bind, Action.run_observe]
    simp only
    cases hcached : s.isCached d h with
    | false => rfl
    | true =>
      rcases hrun : Action.run (s.fetch fetcher d) h with ⟨path, g⟩
      rw [if_pos rfl, Action.run_bind, hrun]
      rcases fetch_outcome hrun with ⟨hpoisoned, -, -⟩ | ⟨-, -, rfl, rfl⟩ | ⟨-, hnot, -⟩
      · rw [hlock d hd] at hpoisoned
        cases hpoisoned
      · rfl
      · rw [hcached] at hnot
        cases hnot

/-- What a call has written that has failed is gone, and the fetch gives its cause. -/
def CleansUp (s : Storage) (fetcher : Fetcher) (d : Dependency) (h g : Host) (path : Except Failure Path) :
    Prop :=
  ∀ before after cause, Action.run (s.prepare d >>= fun _ => s.sweep d) h = (.ok (), before) →
    Action.run (s.call fetcher d) before = (.ok (.failed cause), after) →
    path = .error (.during (.fetch d) cause) ∧ s.IsVacant d g ∧ g.pathExists (s.stagingPath d) = false

/-- The tree is what the call of this fetch has written, and nothing is at the staging path. -/
def HasFetched (s : Storage) (fetcher : Fetcher) (d : Dependency) (h g : Host) : Prop :=
  s.IsVacant d g ∧ g.pathExists (s.stagingPath d) = false ∧
    ∃ loc, g.files.Names g.cwd (s.treePath d) loc ∧ g.files.get? loc = some .dir ∧
      s.WrittenBy fetcher d h fun rel => g.files.get? (loc ++ rel)

/-- **A fetch of a tree that is not there.** -/
theorem fetch_of_not_isCached {path : Except Failure Path} (hs : s.IsSound d h) (hd : d.IsAccepted)
    (hf : fetcher.IsConfined) (hlock : s.isPoisoned d h = false) (hcached : s.isCached d h = false)
    (hrun : Action.run (s.fetch fetcher d) h = (path, g)) :
    s.ChangesOnly d h g ∧ s.CleansUp fetcher d h g path ∧
      (path = .ok (s.treePath d) ∧ s.HasFetched fetcher d h g ∨
        (∃ e, path = .error e) ∧ s.KeepsTree d h g) := by
  have hno : s.HasNoTree d h := hasNoTree_of_isCached hcached
  rcases fetch_outcome hrun with ⟨hpoisoned, -⟩ | ⟨-, hyes, -⟩ | ⟨-, -, ⟨e, hfails, rfl⟩ |
    ⟨before, after, ended, hbefore, hcall, hend⟩⟩
  · rw [hlock] at hpoisoned
    cases hpoisoned
  · rw [hcached] at hyes
    cases hyes
  · rcases hs.prepare_sweep hd hno hfails with ⟨-, hchanges, hkeeps⟩ | ⟨hok, -⟩
    · refine ⟨hchanges, fun before after cause hbefore => ?_, .inr ⟨⟨e, rfl⟩, hkeeps⟩⟩
      rw [hfails] at hbefore
      cases hbefore
    · cases hok
  rcases hs.prepare_sweep hd hno hbefore with ⟨⟨e, he⟩, -⟩ | ⟨-, dir, hr⟩
  · cases he
  obtain ⟨⟨ending, rfl⟩, hstaged⟩ := hr.isStaged hd hf hcall
  -- There is no other call than this one, and it has ended so.
  have hclean : (∀ cause, ending ≠ .failed cause) → s.CleansUp fetcher d h g path := by
    intro hnot before' after' cause hbefore' hcall'
    obtain rfl := (Prod.mk.inj (hbefore.symm.trans hbefore')).2
    have hending := (Prod.mk.inj (hcall.symm.trans hcall')).1
    exact absurd (Except.ok.inj hending) (hnot cause)
  rcases hend with ⟨e, he, -, -⟩ | ⟨hdone, res, hplace, rfl⟩ | ⟨cause, hfailed, res, hdiscard, hpath⟩ |
    ⟨hcrashed, rfl, hfiles, hcwd⟩
  · cases he
  · obtain rfl := Except.ok.inj hdone
    have hclean := hclean fun _ => Ending.noConfusion
    rcases hstaged.moves hr.houses hd hr.cwd_dir hr.vacant hr.no_tree hplace with
      ⟨e, rfl, rfl⟩ | ⟨rfl, hm⟩
    · obtain ⟨hchanges, hkeeps⟩ := hr.staged hd hstaged rfl rfl
      exact ⟨hchanges, hclean, .inr ⟨⟨_, rfl⟩, hkeeps⟩⟩
    · obtain ⟨hchanges, hvacant, hgone, hname, hdir⟩ := hr.moved hd hstaged hm
      have hsource : after.files.Names after.cwd (s.stagingPath d) (dir ++ [d.stagingName]) := by
        rw [hstaged.keeps.cwd]
        exact hm.source.retained hstaged.keeps.files
      exact ⟨hchanges, hclean, .inl ⟨rfl, hvacant, hgone, _, hname, hdir, before, after, _, hbefore, hcall,
        hsource, hr.vacant hm.source, hm.get?_tree⟩⟩
  · obtain rfl := Except.ok.inj hfailed
    obtain ⟨rfl, hvacant, hgone, hchanges, hkeeps⟩ := hr.discard hd hstaged hdiscard
    obtain rfl := hpath rfl
    refine ⟨hchanges, fun before' after' cause' hbefore' hcall' => ?_, .inr ⟨⟨_, rfl⟩, hkeeps⟩⟩
    obtain rfl := (Prod.mk.inj (hbefore.symm.trans hbefore')).2
    have hending := (Prod.mk.inj (hcall.symm.trans hcall')).1
    obtain rfl := Ending.failed.inj (Except.ok.inj hending)
    exact ⟨rfl, hvacant, hgone⟩
  · obtain rfl := Except.ok.inj hcrashed
    obtain ⟨hchanges, hkeeps⟩ := hr.staged hd hstaged hfiles hcwd
    exact ⟨hchanges, hclean fun _ => Ending.noConfusion, .inr ⟨⟨_, rfl⟩, hkeeps⟩⟩

/-- **A fetch is done, or not done.** If the tree is there, it is given and nothing changes. Otherwise, if the
fetch succeeds, the tree is what its one call of the fetcher has written and nothing else, and the staging
path is vacant; if it fails, what is at the path of the tree is as it was, and what a failed call has
written is gone. In any case nothing changes beside these two paths, but for new directories on the way to
them. To ask for a dependency by its text is to read it and to fetch it. -/
theorem fetch_atomic {path : Except Failure Path} (hs : s.IsSound d h) (hd : d.IsAccepted)
    (hf : fetcher.IsConfined) (hlock : s.isPoisoned d h = false)
    (hrun : Action.run (s.fetch fetcher d) h = (path, g)) :
    (s.isCached d h = true → path = .ok (s.treePath d) ∧ g = h) ∧
    (s.isCached d h = false →
      (∀ tree, path = .ok tree → tree = s.treePath d ∧ s.HasFetched fetcher d h g) ∧
      s.CleansUp fetcher d h g path) ∧
    (∀ e, path = .error e → s.KeepsTree d h g) ∧
    s.ChangesOnly d h g ∧
    ∀ text, (∀ e, Dependency.parse text = .ok e → s.isPoisoned e h = false) →
      Action.run (s.getDependency fetcher text) h =
        Action.run (do
          let e ← Action.ofExcept (Dependency.parse text)
          return (e, ← s.fetch fetcher e)) h := by
  cases hcached : s.isCached d h with
  | true =>
    obtain ⟨rfl, rfl⟩ : path = .ok (s.treePath d) ∧ g = h := by
      rcases fetch_outcome hrun with ⟨hpoisoned, -⟩ | ⟨-, -, hpath, hg⟩ | ⟨-, hnot, -⟩
      · rw [hlock] at hpoisoned
        cases hpoisoned
      · exact ⟨hpath, hg⟩
      · rw [hcached] at hnot
        cases hnot
    exact ⟨fun _ => ⟨rfl, rfl⟩, Bool.noConfusion, fun e he => (by cases he), fun hk => absurd rfl hk,
      fun _ => run_getDependency⟩
  | false =>
    obtain ⟨hchanges, hclean, hdone⟩ := fetch_of_not_isCached hs hd hf hlock hcached hrun
    refine ⟨Bool.noConfusion, fun _ => ⟨fun tree htree => ?_, hclean⟩, fun e he => ?_, hchanges,
      fun _ => run_getDependency⟩
    · rcases hdone with ⟨rfl, hfetched⟩ | ⟨⟨e, rfl⟩, -⟩
      · exact ⟨(Except.ok.inj htree).symm, hfetched⟩
      · cases htree
    · rcases hdone with ⟨rfl, -⟩ | ⟨-, hkeeps⟩
      · cases he
      · exact hkeeps

/-- An interrupted fetch has left a file. -/
def interruptedCache : Host :=
  .ofFiles ((empty.put ["cache"] .dir).plant ["cache", "a", ".b@1.0.0.partial", "old"] (.file [1])) [] ⟨"/"⟩

theorem isSound_interruptedCache : IsSound ⟨⟨"/cache"⟩, 0⟩ Use.sampleDependency interruptedCache := by
  have hd : Use.sampleDependency.IsAccepted := show Dependency.ofString? "a/b@1.0.0" = _ by decide
  have ha : IsApart ⟨⟨"/cache"⟩, 0⟩ Use.sampleDependency ["cache", "a"] interruptedCache :=
    ⟨⟨walk_find_eq_ok_iff.1 (by decide +kernel), by decide +kernel⟩, by decide +kernel⟩
  have hcache : (empty.put ["cache"] .dir).WellFormed :=
    wellFormed_empty.put (show empty.get? [] = some .dir from rfl) rfl (by decide)
  have hwf : ((empty.put ["cache"] .dir).plant ["cache", "a", ".b@1.0.0.partial", "old"]
      (.file [1])).WellFormed := hcache.plant (by decide) (by decide +kernel) (by decide +kernel)
  refine isSound_of_isApart hd hwf rfl
    ⟨["cache"], walk_find_eq_ok_iff.1 (by decide +kernel), by decide +kernel⟩
    (fun hname hlink => ?_) fun hh => hh.unique ha.houses ▸ ha
  obtain ⟨rfl, -⟩ := (ha.houses.names_staging_iff hd).1 hname
  have hdir : interruptedCache.files.get? ["cache", "a", ".b@1.0.0.partial"] = some .dir := by
    decide +kernel
  cases hdir.symm.trans hlink

/-- What has been left is not in the tree that is fetched. -/
theorem fetch_atomic_sample :
    ∃ g, Action.run (fetch ⟨⟨"/cache"⟩, 0⟩ (Use.sampleFetcher .done) Use.sampleDependency) interruptedCache =
        (.ok ⟨"/cache/a/b@1.0.0"⟩, g) ∧
      g.files.get? ["cache", "a", "b@1.0.0", "src", "A.sol"] = some (.file [0]) ∧
      g.files.get? ["cache", "a", "b@1.0.0", "old"] = none ∧
      HasFetched ⟨⟨"/cache"⟩, 0⟩ (Use.sampleFetcher .done) Use.sampleDependency interruptedCache g ∧
      ChangesOnly ⟨⟨"/cache"⟩, 0⟩ Use.sampleDependency interruptedCache g := by
  let s : Storage := ⟨⟨"/cache"⟩, 0⟩
  obtain ⟨hpath, hnew, hold⟩ :
      (Action.run (s.fetch (Use.sampleFetcher .done) Use.sampleDependency) interruptedCache).1 =
          .ok ⟨"/cache/a/b@1.0.0"⟩ ∧
        (Action.run (s.fetch (Use.sampleFetcher .done) Use.sampleDependency) interruptedCache).2.files.get?
          ["cache", "a", "b@1.0.0", "src", "A.sol"] = some (.file [0]) ∧
        (Action.run (s.fetch (Use.sampleFetcher .done) Use.sampleDependency) interruptedCache).2.files.get?
          ["cache", "a", "b@1.0.0", "old"] = none := by decide +kernel
  have hlock : s.isPoisoned Use.sampleDependency interruptedCache = false := by decide +kernel
  have hcached : s.isCached Use.sampleDependency interruptedCache = false := by decide +kernel
  rcases hrun : Action.run (s.fetch (Use.sampleFetcher .done) Use.sampleDependency) interruptedCache with
    ⟨path, g⟩
  rw [hrun] at hpath hnew hold
  obtain rfl := hpath
  obtain ⟨-, hfetched, -, hchanges, -⟩ := fetch_atomic isSound_interruptedCache
    (show Dependency.ofString? "a/b@1.0.0" = some Use.sampleDependency by decide)
    (Use.isConfined_sampleFetcher .done) hlock hrun
  exact ⟨g, rfl, hnew, hold, ((hfetched hcached).1 _ rfl).2, hchanges⟩

end SolVendor.Storage
