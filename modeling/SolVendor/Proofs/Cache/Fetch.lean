import SolVendor.Proofs.Cache.Site
import SolVendor.Proofs.Cache.Tidy
/-!
# Cache — what a fetch leaves behind

On a tidy host each stage of a fetch has its effect on one or two slots.
The directory of the owner is made (`prepare_spec`); what is left in the
slot of the staging tree is removed (`removeTree_spec_staging`); a confined
fetcher fills that slot and nothing else (`call_spec`); and the complete
tree is moved to its own slot (`place_spec`).

So a fetch of one dependency, however it ends, leaves a tidy host on which
all other slots are as they were, and its own tree is as it was or what the
fetcher has just written (`fetch_spec`).
-/

namespace SolVendor.Storage

open FileSystem

variable {s : Storage} {fetcher : Fetcher} {d : Dependency} {r : Location} {h₀ h g : Host}
  {res : Except Failure Unit}

/-- The directory that the tree goes to is there. -/
structure IsPrepared (s : Storage) (r : Location) (d : Dependency) (h : Host) : Prop where
  leads : h.files.Leads h.cwd (s.root.pieces ++ [.ofPiece d.owner.bytes])
    (.ofPlace (d.placeOfOwner r))
  dir : h.files.get? (d.placeOfOwner r) = some .dir

/-! ## The paths of a storage -/

theorem IsPrepared.houses (hp : s.IsPrepared r d h) : s.Houses d (d.placeOfOwner r) h :=
  ⟨hp.leads, hp.dir⟩

/-- **The staging path names the slot of the staging tree.** -/
theorem IsPrepared.eq_of_names_staging {loc : Location} (hp : s.IsPrepared r d h)
    (hd : d.IsAccepted) (hname : h.files.Names h.cwd (s.stagingPath d) loc) :
    loc = d.stagingPlace r :=
  ((hp.houses.names_staging_iff hd).1 hname).1

/-- **The path of the tree names its slot.** -/
theorem IsPrepared.eq_of_names_tree {loc : Location} (hp : s.IsPrepared r d h)
    (hd : d.IsAccepted) (hname : h.files.Names h.cwd (s.treePath d) loc) :
    loc = d.treePlace r :=
  ((hp.houses.names_tree_iff hd).1 hname).1

/-- The directory stays where it is when slots change. -/
theorem IsPrepared.of_changesSlot {h' : Host} {slot : Location} (hp : s.IsPrepared r d h)
    (ht : IsTidy s.root r h₀ h) (hd : d.IsAccepted) (hdots : d.owner ≠ "..")
    (hslot : IsTreeSlot r slot) (hc : ChangesSlot slot h h') : s.IsPrepared r d h' := by
  have hdir : h'.files.get? (d.placeOfOwner r) = some .dir := by
    rw [hc.outside (hd.not_prefix_placeOfOwner hslot), hp.dir]
  have hroot := (hc.isTidy hslot ht).leads
  refine ⟨?_, hdir⟩
  obtain ⟨mid, l, hmid, hw⟩ := hp.leads.exists_of_append
  unfold Dependency.placeOfOwner at hdir ⊢
  split
  · rename_i hdot
    rw [if_pos hdot] at hdir
    rw [hdot]
    exact hroot.append (.here hdir .nil)
  · rename_i hdot
    rw [if_neg hdot] at hdir
    rw [hd.ofPiece_owner hdot hdots] at hw ⊢
    have hn : isTooLong d.owner = false := by
      cases hw with
      | name _ _ hn _ _ _ => exact hn
      | link _ _ hn _ _ => exact hn
    exact hroot.concat (hc.isTidy hslot ht).dir hn hdir (by simp)

/-- A tree that is cached is in its slot. -/
theorem get?_treePlace_of_isCached (ht : IsTidy s.root r h₀ h) (hd : d.IsAccepted)
    (hdots : d.owner ≠ "..") (hc : s.isCached d h = true) :
    h.files.get? (d.treePlace r) = some .dir := by
  obtain ⟨pos, hpos, hs⟩ := isDir_iff.1 hc
  obtain ⟨-, hl⟩ := locate_eq_ok_iff.1 hpos
  have hl := leads_pieces_of_steps hl
  rw [pieces_treePath hd] at hl
  exact (ht.leads_slot hd hdots hd.at_mem_treeName hl).2

/-- **A staging tree is taken for the tree that has its name.** As soon as it stands, that one is
cached, if its path is not too long. -/
theorem isCached_of_isDir_stagingPath {e : Dependency} (he : e.IsAccepted) (hd : d.IsAccepted)
    (hs : e.StagesAs d) (hcheck : checkPath (s.treePath d) = .ok ())
    (hdir : h.isDir (s.stagingPath e) = true) : s.isCached d h = true := by
  obtain ⟨howner, hname⟩ := hs
  obtain ⟨q, j, -, hq, hpieces, -⟩ := pieces_stagingPath (s := s) he
  obtain ⟨pos, hpos, hstands⟩ := isDir_iff.1 hdir
  have hl := leads_pieces_of_steps (locate_eq_ok_iff.1 hpos).2
  rw [hpieces] at hl
  -- The path of the tree may have dots where the staging path has none.
  have hl := hl.insert_dots (List.cons_ne_nil _ _) (by simp) j
  rw [← hq, howner, hname, ← List.append_cons, ← pieces_treePath hd] at hl
  have hsteps := leads_steps_of_pieces hl (.inr hstands)
  exact isDir_iff.2 ⟨pos, locate_eq_ok_iff.2 ⟨hcheck, hsteps⟩, hstands⟩

/-! ## The stages of a fetch -/

/-- The directory of the owner is all that is new after one of those above it has been made. -/
theorem get?_makeDirs_owner {q : Path} {k : Location} (ht : IsTidy s.root r h₀ h)
    (hd : d.IsAccepted) (hdots : d.owner ≠ "..")
    (hq : q.pieces <+: s.root.pieces ++ [.ofPiece d.owner.bytes]) :
    (h.files.makeDirs h.cwd q).2.get? k = h.files.get? k ∨
      k = r ++ [d.owner] ∧ (h.files.makeDirs h.cwd q).2.get? k = some .dir := by
  cases hk : h.files.get? k with
  | some e => exact .inl ((addsDirs_makeDirs h.files h.cwd q).extends_old k e hk)
  | none =>
    cases hk' : (h.files.makeDirs h.cwd q).2.get? k with
    | none => exact .inl rfl
    | some e =>
      obtain ⟨rfl, n, hn, rfl⟩ := eq_of_get?_makeDirs_owner ht.cwd_dir ht.leads ht.dir hq hk' hk
      refine .inr ⟨?_, rfl⟩
      by_cases hdot : d.owner = "."
      · rw [hdot] at hn
        cases hn
      · rw [hd.ofPiece_owner hdot hdots] at hn
        rw [Component.name.inj hn]

/-- **The directory of the owner is made.** No slot changes. -/
theorem prepare_spec (ht : IsTidy s.root r h₀ h) (hd : d.IsAccepted) (hdots : d.owner ≠ "..")
    (hrun : Action.run (s.prepare d) h = (res, g)) :
    IsTidy s.root r h₀ g ∧
      (∀ {slot}, IsTreeSlot r slot → ∀ rel,
        g.files.get? (slot ++ rel) = h.files.get? (slot ++ rel)) ∧
      (res = .ok () → s.IsPrepared r d g) := by
  obtain ⟨q, k, hparent, hq, -, -⟩ := pieces_stagingPath (s := s) hd
  unfold prepare at hrun
  rw [hparent] at hrun
  simp only [Action.run_during, Action.run_makeDirs, Prod.mk.injEq] at hrun
  obtain ⟨hres, rfl⟩ := hrun
  have hfiles : ∀ k, (h.files.makeDirs h.cwd q).2.get? k = h.files.get? k ∨
      k = r ++ [d.owner] ∧ (h.files.makeDirs h.cwd q).2.get? k = some .dir :=
    fun k => get?_makeDirs_owner ht hd hdots ⟨_, hq.symm⟩
  have htidy : IsTidy s.root r h₀ { h with files := (h.files.makeDirs h.cwd q).2 } :=
    ht.of_owner rfl hd.at_notMem_owner hfiles
  refine ⟨htidy, fun {slot} hslot rel => ?_, fun hok => ?_⟩
  · rcases hfiles (slot ++ rel) with hsame | ⟨howner, -⟩
    · exact hsame
    · exact absurd howner (hslot.append_ne_owner hd.at_notMem_owner rel)
  · have hmake : (h.files.makeDirs h.cwd q).1 = .ok () := by
      cases hmk : (h.files.makeDirs h.cwd q).1 with
      | error e =>
        rw [hmk, hok] at hres
        cases hres
      | ok u => rfl
    obtain ⟨pos, hl, hs⟩ := exists_leads_of_makeDirs ht.cwd_dir hmake
    have howner := hl.append_dots hs k
    rw [← hq] at howner
    obtain ⟨rfl, hdir⟩ := htidy.leads_owner hd hdots howner
    exact ⟨howner, hdir⟩

/-- A change of the files where the working directory is not. -/
theorem run_change_of_get?_cwd {f : FileSystem → Position → Except FileError FileSystem}
    {files : FileSystem} (hf : f h.files h.cwd = .ok files)
    (hcwd : files.get? h.cwd.place = some .dir) :
    Action.run (Action.change f) h = (.ok (), { h with files }) := by
  rw [Action.run_change, hf]
  simp only
  rw [Host.withFiles_eq hcwd]

/-- Nothing stands at the place of the staging path or below. -/
def IsVacant (s : Storage) (d : Dependency) (h : Host) : Prop :=
  ∀ {loc}, h.files.Names h.cwd (s.stagingPath d) loc → ∀ rel, h.files.get? (loc ++ rel) = none

/-- **What is left in the slot of the staging tree is removed**, and nothing else. -/
theorem removeTree_spec_staging (ht : IsTidy s.root r h₀ h) (hd : d.IsAccepted)
    (hdots : d.owner ≠ "..") (hp : s.IsPrepared r d h)
    (hrun : Action.run (Action.removeTree (s.stagingPath d)) h = (res, g)) :
    ChangesSlot (d.stagingPlace r) h g ∧ (res = .ok () → s.IsVacant d g) := by
  have hslot : IsTreeSlot r (d.stagingPlace r) := hd.isTreeSlot_stagingPlace
  have hsame : ChangesSlot (d.stagingPlace r) h h := ⟨rfl, fun _ => rfl, ht.trees hslot⟩
  unfold Action.removeTree at hrun
  rw [Action.run_bind, Action.run_observe] at hrun
  simp only at hrun
  split at hrun
  · cases hrm : h.files.removeTree h.cwd (s.stagingPath d) with
    | error e =>
      rw [Action.run_change, hrm] at hrun
      cases hrun
      exact ⟨hsame, fun hok => by cases hok⟩
    | ok files =>
      obtain ⟨loc, hname, rfl⟩ := removeTree_spec hrm
      obtain rfl := hp.eq_of_names_staging hd hname
      have hnone : ∀ rel, (h.files.cut (d.stagingPlace r)).get? (d.stagingPlace r ++ rel) = none :=
        get?_cut_append hname.ne_nil
      have hcwd : (h.files.cut (d.stagingPlace r)).get? h.cwd.place = some .dir := by
        rw [get?_cut_of_apart (ht.not_prefix_cwd hslot), ht.cwd_dir]
      have hc : ChangesSlot (d.stagingPlace r) h
          { h with files := h.files.cut (d.stagingPlace r) } :=
        ⟨rfl, get?_cut_of_apart, .inl hnone⟩
      rw [run_change_of_get?_cwd (f := fun fs cwd => fs.removeTree cwd (s.stagingPath d)) hrm hcwd]
        at hrun
      cases hrun
      refine ⟨hc, fun _ {loc} hloc => ?_⟩
      rw [(hp.of_changesSlot ht hd hdots hslot hc).eq_of_names_staging hd hloc]
      exact hnone
  · -- Nothing is found at the staging path, so its slot is vacant.
    rename_i hex
    cases hrun
    refine ⟨hsame, fun _ {loc} hname => ?_⟩
    obtain rfl := hp.eq_of_names_staging hd hname
    rcases ht.trees hslot with hnone | hdir
    · exact hnone
    · -- A directory in the slot would be found.
      obtain ⟨pos, hpos, hs⟩ := isDir_iff.1 (hname.isDir hdir)
      have hfound : h.pathExists (s.stagingPath d) = true :=
        pathExists_iff.2 ⟨pos, .dir, hpos, hs⟩
      exact absurd hfound hex

theorem sweep_spec (ht : IsTidy s.root r h₀ h) (hd : d.IsAccepted) (hdots : d.owner ≠ "..")
    (hp : s.IsPrepared r d h) (hrun : Action.run (s.sweep d) h = (res, g)) :
    ChangesSlot (d.stagingPlace r) h g ∧ (res = .ok () → s.IsVacant d g) := by
  unfold sweep at hrun
  rcases hrm : Action.run (Action.removeTree (s.stagingPath d)) h with ⟨res', g'⟩
  simp only [Action.run_during, hrm, Prod.mk.injEq] at hrun
  obtain ⟨rfl, rfl⟩ := hrun
  obtain ⟨hc, hvacant⟩ := removeTree_spec_staging ht hd hdots hp hrm
  refine ⟨hc, fun hok => hvacant ?_⟩
  cases res' with
  | error e => cases hok
  | ok u => rfl

/-- A failed call leaves what removing the staging tree leaves. -/
theorem discard_spec (ht : IsTidy s.root r h₀ h) (hd : d.IsAccepted) (hdots : d.owner ≠ "..")
    (hp : s.IsPrepared r d h) (hrun : Action.run (s.discard d) h = (res, g)) :
    ChangesSlot (d.stagingPlace r) h g := by
  unfold discard at hrun
  rcases hrm : Action.run (Action.removeTree (s.stagingPath d)) h with ⟨res', g'⟩
  rw [Action.run_bind, Action.run_attempt, hrm] at hrun
  cases hrun
  exact (removeTree_spec_staging ht hd hdots hp hrm).1

/-- **A confined fetcher fills the slot of the staging tree**, and nothing else. -/
theorem call_spec {ended : Except Failure Ending} (hf : fetcher.IsConfined)
    (ht : IsTidy s.root r h₀ h) (hd : d.IsAccepted) (hp : s.IsPrepared r d h)
    (hvacant : s.IsVacant d h) (hrun : Action.run (s.call fetcher d) h = (ended, g)) :
    (∃ ending, ended = .ok ending) ∧ ChangesSlot (d.stagingPlace r) h g := by
  have hslot : IsTreeSlot r (d.stagingPlace r) := hd.isTreeSlot_stagingPlace
  unfold call at hrun
  simp only [Action.run_bind, Action.run_observe, Action.run_modify] at hrun
  -- The call is recorded first, which changes no file.
  let h' : Host := { h with fetches := h.fetches ++ [FetchCall.mk s.handle d (s.stagingPath d)] }
  have hhouses : s.Houses d (d.placeOfOwner r) h' := ⟨hp.leads, hp.dir⟩
  have hready : h'.IsReady (s.stagingPath d) := hhouses.isReady hd ht.cwd_dir hvacant
  have hkeep := Delivery.keeps_run (h := h') ht.cwd_dir
    (fetcher (s.callCount h) d (s.stagingPath d)) (s.stagingPath d)
  have hconfined := hf (s.callCount h) d (s.stagingPath d) h' hready
  obtain ⟨ending, hends⟩ := Delivery.run_run (fetcher (s.callCount h) d (s.stagingPath d))
    (s.stagingPath d) h'
  have hg : (Action.run ((fetcher (s.callCount h) d (s.stagingPath d)).run (s.stagingPath d)) h') =
      (ended, g) := hrun
  rw [hg] at hkeep hconfined hends
  refine ⟨⟨ending, congrArg Prod.fst hends⟩, hkeep.cwd, fun {k} hk => ?_, ?_⟩
  · by_contra hne
    obtain ⟨loc, hname, hpre⟩ := hconfined k hne
    have hname : h.files.Names h.cwd (s.stagingPath d) loc := hname
    exact hk (hp.eq_of_names_staging hd hname ▸ hpre)
  · by_cases hnamed : ∃ loc, h.files.Names h.cwd (s.stagingPath d) loc
    · obtain ⟨loc, hname⟩ := hnamed
      have hdest := Delivery.destination_of_run (h := h') ht.cwd_dir
        (fetcher (s.callCount h) d (s.stagingPath d)) hname
        (by simpa using hvacant hname [])
      rw [hg, hp.eq_of_names_staging hd hname] at hdest
      rcases hdest with hsame | hdir
      · have hsame : g = h' := hsame
        rw [hsame]
        exact ht.trees hslot
      · exact .inr hdir
    · -- A destination without a place is not written at all.
      have hsame : ∀ k, g.files.get? k = h.files.get? k := by
        intro k
        by_contra hne
        obtain ⟨loc, hname, -⟩ := hconfined k hne
        exact hnamed ⟨loc, hname⟩
      simp only [hsame]
      exact ht.trees hslot

/-- **The complete tree is moved to its own slot**, or nothing changes. -/
theorem place_spec (ht : IsTidy s.root r h₀ h) (hd : d.IsAccepted) (hp : s.IsPrepared r d h)
    (hrun : Action.run (s.place d) h = (res, g)) :
    (∃ e, res = .error e ∧ g = h) ∨
      (res = .ok () ∧ g.cwd = h.cwd ∧
        h.files.Names h.cwd (s.stagingPath d) (d.stagingPlace r) ∧
        (∀ rel, g.files.get? (d.treePlace r ++ rel) = h.files.get? (d.stagingPlace r ++ rel)) ∧
        ∀ k, ¬ d.treePlace r <+: k →
          g.files.get? k = if d.stagingPlace r <+: k then none else h.files.get? k) := by
  unfold place at hrun
  simp only [Action.run_during, Prod.mk.injEq] at hrun
  obtain ⟨hres, hg⟩ := hrun
  cases hrn : h.files.rename h.cwd (s.stagingPath d) (s.treePath d) with
  | error e =>
    rw [Action.run_change, hrn] at hres hg
    exact .inl ⟨_, hres.symm, hg.symm⟩
  | ok files =>
    obtain ⟨src, dst, e, hsrc, hdst, -, hfiles⟩ := rename_spec hrn
    obtain rfl := hp.eq_of_names_staging hd hsrc
    obtain rfl := hp.eq_of_names_tree hd hdst
    -- A dependency does not stage as itself, so the tree does move.
    rcases hfiles with ⟨heq, -⟩ | ⟨hne, rfl⟩
    · exact absurd heq (Dependency.stagingPlace_ne_treePlace (Dependency.not_stagesAs_self d))
    · have hother : ∀ k, ¬ d.treePlace r <+: k →
          (h.files.graft (d.stagingPlace r) (d.treePlace r)).get? k =
            if d.stagingPlace r <+: k then none else h.files.get? k :=
        fun _ hk => get?_graft_of_apart hsrc.ne_nil hk
      have hcwd : (h.files.graft (d.stagingPlace r) (d.treePlace r)).get? h.cwd.place =
          some .dir := by
        rw [hother _ (ht.not_prefix_cwd hd.isTreeSlot_treePlace),
          if_neg (ht.not_prefix_cwd hd.isTreeSlot_stagingPlace), ht.cwd_dir]
      rw [run_change_of_get?_cwd
        (f := fun fs cwd => fs.rename cwd (s.stagingPath d) (s.treePath d)) hrn hcwd] at hres hg
      subst hg
      exact .inr ⟨hres.symm, rfl, hsrc, get?_graft_append hsrc.ne_nil hdst.ne_nil, hother⟩

/-! ## A whole fetch -/

/-- The tree is what a call of the fetcher for the dependency has written that ended well, entry by
entry: before the call nothing was at the place of the staging path or below. -/
def WrittenBy (s : Storage) (fetcher : Fetcher) (d : Dependency) (h : Host)
    (tree : Location → Option Entry) : Prop :=
  ∃ before after loc, Action.run (s.prepare d >>= fun _ => s.sweep d) h = (.ok (), before) ∧
    Action.run (s.call fetcher d) before = (.ok .done, after) ∧
    after.files.Names after.cwd (s.stagingPath d) loc ∧
    (∀ rel, before.files.get? (loc ++ rel) = none) ∧
    ∀ rel, tree rel = after.files.get? (loc ++ rel)

/-- The staging path names the slot as soon as the directory is there. -/
theorem IsPrepared.names_staging {loc : Location} (hp : s.IsPrepared r d h) (hd : d.IsAccepted)
    (hname : g.files.Names g.cwd (s.stagingPath d) loc) :
    h.files.Names h.cwd (s.stagingPath d) (d.stagingPlace r) := by
  obtain ⟨dir, hhouses⟩ := exists_houses_of_names_staging hd hname
  obtain ⟨-, hcheck⟩ := (hhouses.names_staging_iff hd).1 hname
  exact (hp.houses.names_staging_iff hd).2 ⟨rfl, hcheck⟩

/-- **Moving the complete tree keeps the host tidy**, and all slots but two. -/
theorem isTidy_of_moved (ht : IsTidy s.root r h₀ h) (hd : d.IsAccepted) (hcwd : g.cwd = h.cwd)
    (htree : ∀ rel, g.files.get? (d.treePlace r ++ rel) = h.files.get? (d.stagingPlace r ++ rel))
    (hother : ∀ k, ¬ d.treePlace r <+: k →
      g.files.get? k = if d.stagingPlace r <+: k then none else h.files.get? k) :
    IsTidy s.root r h₀ g := by
  have hsslot : IsTreeSlot r (d.stagingPlace r) := hd.isTreeSlot_stagingPlace
  have htslot : IsTreeSlot r (d.treePlace r) := hd.isTreeSlot_treePlace
  refine ht.of_slots hcwd fun k => ?_
  by_cases hk : d.treePlace r <+: k
  · refine .inr ⟨d.treePlace r, htslot, hk, ?_⟩
    have hat := htree []
    rw [List.append_nil, List.append_nil] at hat
    simp only [htree, hat]
    exact ht.trees hsslot
  · rw [hother k hk]
    split
    · rename_i hpre
      refine .inr ⟨d.stagingPlace r, hsslot, hpre, .inl fun rel => ?_⟩
      have hne : ¬ d.treePlace r <+: d.stagingPlace r ++ rel := fun hpre =>
        Dependency.stagingPlace_ne_treePlace (Dependency.not_stagesAs_self d)
          (htslot.eq_of_prefix hsslot hpre).symm
      rw [hother _ hne, if_pos (List.prefix_append _ _)]
    · exact .inl rfl

/-- **The complete tree fills its own slot**, or nothing changes. The other slots but that of the staging
tree are as they were. -/
theorem place_slots (ht : IsTidy s.root r h₀ h) (hd : d.IsAccepted) (hp : s.IsPrepared r d h)
    (hrun : Action.run (s.place d) h = (res, g)) :
    IsTidy s.root r h₀ g ∧ ∀ {slot}, IsTreeSlot r slot → slot ≠ d.stagingPlace r →
      (∀ rel, g.files.get? (slot ++ rel) = h.files.get? (slot ++ rel)) ∨
        slot = d.treePlace r ∧ h.files.Names h.cwd (s.stagingPath d) (d.stagingPlace r) ∧
          ∀ rel, g.files.get? (slot ++ rel) = h.files.get? (d.stagingPlace r ++ rel) := by
  have hsslot : IsTreeSlot r (d.stagingPlace r) := hd.isTreeSlot_stagingPlace
  have htslot : IsTreeSlot r (d.treePlace r) := hd.isTreeSlot_treePlace
  rcases place_spec ht hd hp hrun with ⟨e, -, rfl⟩ | ⟨-, hcwd, hname, htree, hother⟩
  · exact ⟨ht, fun _ _ => .inl fun _ => rfl⟩
  · refine ⟨isTidy_of_moved ht hd hcwd htree hother, fun {slot} hslot hne => ?_⟩
    by_cases htreeSlot : slot = d.treePlace r
    · subst htreeSlot
      exact .inr ⟨rfl, hname, htree⟩
    · refine .inl fun rel => ?_
      have hnt : ¬ d.treePlace r <+: slot ++ rel :=
        fun hpre => htreeSlot (htslot.eq_of_prefix hslot hpre).symm
      have hns : ¬ d.stagingPlace r <+: slot ++ rel :=
        fun hpre => hne (hsslot.eq_of_prefix hslot hpre).symm
      rw [hother _ hnt, if_neg hns]

/-- **The fetcher is called on a tidy host**, with its destination vacant. No slot but that of the staging
tree has changed until then. -/
theorem prepare_sweep_spec (ht : IsTidy s.root r h₀ h) (hd : d.IsAccepted) (hdots : d.owner ≠ "..")
    (hrun : Action.run (s.prepare d >>= fun _ => s.sweep d) h = (res, g)) :
    IsTidy s.root r h₀ g ∧
      (∀ {slot}, IsTreeSlot r slot → slot ≠ d.stagingPlace r → ∀ rel,
        g.files.get? (slot ++ rel) = h.files.get? (slot ++ rel)) ∧
      (res = .ok () → s.IsPrepared r d g ∧ s.IsVacant d g) := by
  have hsslot : IsTreeSlot r (d.stagingPlace r) := hd.isTreeSlot_stagingPlace
  rcases Action.run_bind_cases hrun with ⟨e, hprep, rfl⟩ | ⟨u, g₁, hprep, hsweep⟩
  · obtain ⟨htidy, hsame, -⟩ := prepare_spec ht hd hdots hprep
    exact ⟨htidy, fun hslot _ => hsame hslot, fun hok => by cases hok⟩
  · obtain ⟨htidy, hsame, hp⟩ := prepare_spec ht hd hdots hprep
    obtain ⟨hc, hvacant⟩ := sweep_spec htidy hd hdots (hp rfl) hsweep
    refine ⟨hc.isTidy hsslot htidy, fun hslot hne rel => ?_, fun hok => ⟨?_, hvacant hok⟩⟩
    · rw [hc.get?_other hsslot hslot hne, hsame hslot]
    · exact (hp rfl).of_changesSlot htidy hd hdots hsslot hc

/-- **How a fetch goes, and what it gives.** A poisoned lock and a tree that is there end it. Otherwise the
fetcher is called, if its destination can be prepared; and what comes after that depends on how the call
has ended. -/
theorem fetch_outcome {path : Except Failure Path}
    (hrun : Action.run (s.fetch fetcher d) h = (path, g)) :
    (s.isPoisoned d h = true ∧ path = .error (.lockPoisoned d) ∧ g = h) ∨
      (s.isPoisoned d h = false ∧ s.isCached d h = true ∧ path = .ok (s.treePath d) ∧ g = h) ∨
      (s.isPoisoned d h = false ∧ s.isCached d h = false ∧
        ((∃ e, Action.run (s.prepare d >>= fun _ => s.sweep d) h = (.error e, g) ∧ path = .error e) ∨
          ∃ before after ended, Action.run (s.prepare d >>= fun _ => s.sweep d) h = (.ok (), before) ∧
            Action.run (s.call fetcher d) before = (ended, after) ∧
            ((∃ e, ended = .error e ∧ path = .error e ∧ g = after) ∨
              (ended = .ok .done ∧ ∃ res, Action.run (s.place d) after = (res, g) ∧
                path = res.map fun _ => s.treePath d) ∨
              (∃ cause, ended = .ok (.failed cause) ∧ ∃ res, Action.run (s.discard d) after = (res, g) ∧
                (res = .ok () → path = .error (.during (.fetch d) cause))) ∨
              ended = .ok .crashed ∧ path = .error .crashed ∧ g.files = after.files ∧
                g.cwd = after.cwd))) := by
  unfold fetch at hrun
  rw [Action.run_bind, Action.run_observe] at hrun
  simp only at hrun
  split at hrun
  · rename_i hpoisoned
    cases hrun
    exact .inl ⟨hpoisoned, rfl, rfl⟩
  rename_i hpoisoned
  rw [Action.run_bind, Action.run_observe] at hrun
  simp only at hrun
  split at hrun
  · rename_i hcached
    cases hrun
    exact .inr (.inl ⟨Bool.eq_false_iff.2 hpoisoned, hcached, rfl, rfl⟩)
  rename_i hcached
  refine .inr (.inr ⟨Bool.eq_false_iff.2 hpoisoned, Bool.eq_false_iff.2 hcached, ?_⟩)
  rcases Action.run_bind_cases hrun with ⟨e, hprep, rfl⟩ | ⟨⟨⟩, g₁, hprep, hrun⟩
  · exact .inl ⟨e, by rw [Action.run_bind, hprep], rfl⟩
  have hboth : Action.run (s.prepare d >>= fun _ => s.sweep d) h = Action.run (s.sweep d) g₁ := by
    rw [Action.run_bind, hprep]
  rcases Action.run_bind_cases hrun with ⟨e, hsweep, rfl⟩ | ⟨⟨⟩, before, hsweep, hrun⟩
  · exact .inl ⟨e, hboth.trans hsweep, rfl⟩
  refine .inr ⟨before, ?_⟩
  rcases Action.run_bind_cases hrun with ⟨e, hcall, rfl⟩ | ⟨ending, after, hcall, hrun⟩
  · exact ⟨g, .error e, hboth.trans hsweep, hcall, .inl ⟨e, rfl, rfl, rfl⟩⟩
  refine ⟨after, .ok ending, hboth.trans hsweep, hcall, .inr ?_⟩
  cases ending with
  | done =>
    refine .inl ⟨rfl, ?_⟩
    rcases Action.run_bind_cases hrun with ⟨e, hplace, rfl⟩ | ⟨u, g₂, hplace, hend⟩
    · exact ⟨_, hplace, rfl⟩
    · cases hend
      exact ⟨_, hplace, rfl⟩
  | failed cause =>
    refine .inr (.inl ⟨cause, rfl, ?_⟩)
    rcases Action.run_bind_cases hrun with ⟨e, hdiscard, -⟩ | ⟨u, g₂, hdiscard, hend⟩
    · exact ⟨_, hdiscard, fun hok => by cases hok⟩
    · cases hend
      exact ⟨_, hdiscard, fun _ => rfl⟩
  | crashed =>
    cases hrun
    exact .inr (.inr ⟨rfl, rfl, rfl, rfl⟩)

/-- **How a fetch goes.** Nothing is done, or the fetcher is called, if its destination can be prepared. -/
theorem fetch_cases {path : Except Failure Path}
    (hrun : Action.run (s.fetch fetcher d) h = (path, g)) :
    g = h ∨ (∃ e, Action.run (s.prepare d >>= fun _ => s.sweep d) h = (.error e, g)) ∨
      ∃ before after ended, Action.run (s.prepare d >>= fun _ => s.sweep d) h = (.ok (), before) ∧
        Action.run (s.call fetcher d) before = (ended, after) ∧
        ((∃ e, ended = .error e ∧ g = after) ∨
          (ended = .ok .done ∧ ∃ res, Action.run (s.place d) after = (res, g)) ∨
          (∃ cause, ended = .ok (.failed cause) ∧ ∃ res, Action.run (s.discard d) after = (res, g)) ∨
          ended = .ok .crashed ∧ g.files = after.files ∧ g.cwd = after.cwd) := by
  rcases fetch_outcome hrun with ⟨-, -, hg⟩ | ⟨-, -, -, hg⟩ | ⟨-, -, ⟨e, hfails, -⟩ |
    ⟨before, after, ended, hbefore, hcall, hend⟩⟩
  · exact .inl hg
  · exact .inl hg
  · exact .inr (.inl ⟨e, hfails⟩)
  · refine .inr (.inr ⟨before, after, ended, hbefore, hcall, ?_⟩)
    rcases hend with ⟨e, he, -, hg⟩ | ⟨hdone, res, hplace, -⟩ | ⟨cause, hfailed, res, hdiscard, -⟩ |
      ⟨hcrashed, -, hg⟩
    · exact .inl ⟨e, he, hg⟩
    · exact .inr (.inl ⟨hdone, res, hplace⟩)
    · exact .inr (.inr (.inl ⟨cause, hfailed, res, hdiscard⟩))
    · exact .inr (.inr (.inr ⟨hcrashed, hg⟩))

/-- **A fetch leaves a tidy host**, on which all slots but that of the staging tree are as they were;
the slot of the tree is, or it is what the fetcher has just written. -/
theorem fetch_spec {path : Except Failure Path} (hf : fetcher.IsConfined)
    (ht : IsTidy s.root r h₀ h) (hd : d.IsAccepted) (hdots : d.owner ≠ "..")
    (hrun : Action.run (s.fetch fetcher d) h = (path, g)) :
    IsTidy s.root r h₀ g ∧ ∀ {slot}, IsTreeSlot r slot → slot ≠ d.stagingPlace r →
      (∀ rel, g.files.get? (slot ++ rel) = h.files.get? (slot ++ rel)) ∨
        slot = d.treePlace r ∧ s.WrittenBy fetcher d h fun rel => g.files.get? (slot ++ rel) := by
  have hsslot : IsTreeSlot r (d.stagingPlace r) := hd.isTreeSlot_stagingPlace
  rcases fetch_cases hrun with rfl | ⟨e, hprep⟩ | ⟨before, after, ended, hprep, hcall, hend⟩
  · exact ⟨ht, fun _ _ => .inl fun _ => rfl⟩
  · obtain ⟨htidy, hsame, -⟩ := prepare_sweep_spec ht hd hdots hprep
    exact ⟨htidy, fun hslot hne => .inl (hsame hslot hne)⟩
  · obtain ⟨htidy, hsame, hready⟩ := prepare_sweep_spec ht hd hdots hprep
    obtain ⟨hp, hvacant⟩ := hready rfl
    obtain ⟨⟨ending, rfl⟩, hc⟩ := call_spec hf htidy hd hp hvacant hcall
    -- The call has changed the slot of the staging tree only.
    have htidy' := hc.isTidy hsslot htidy
    have hp' := hp.of_changesSlot htidy hd hdots hsslot hc
    have hsame' : ∀ {slot}, IsTreeSlot r slot → slot ≠ d.stagingPlace r → ∀ rel,
        after.files.get? (slot ++ rel) = h.files.get? (slot ++ rel) := by
      intro slot hslot hne rel
      rw [hc.get?_other hsslot hslot hne, hsame hslot hne]
    rcases hend with ⟨e, he, -⟩ | ⟨hdone, res, hplace⟩ | ⟨cause, -, res, hdiscard⟩ | ⟨-, hfiles, hcwd⟩
    · cases he
    · cases hdone
      obtain ⟨hg, hslots⟩ := place_slots htidy' hd hp' hplace
      refine ⟨hg, fun hslot hne => ?_⟩
      rcases hslots hslot hne with hold | ⟨rfl, hname, htree⟩
      · exact .inl fun rel => (hold rel).trans (hsame' hslot hne rel)
      · have hnone := hvacant (hp.names_staging hd hname)
        exact .inr ⟨rfl, before, after, d.stagingPlace r, hprep, hcall, hname, hnone, htree⟩
    · have hc' := discard_spec htidy' hd hdots hp' hdiscard
      refine ⟨hc'.isTidy hsslot htidy', fun hslot hne => .inl fun rel => ?_⟩
      rw [hc'.get?_other hsslot hslot hne, hsame' hslot hne]
    · refine ⟨htidy'.of_files_eq hfiles hcwd, fun hslot hne => .inl fun rel => ?_⟩
      rw [hfiles, hsame' hslot hne]

end SolVendor.Storage
