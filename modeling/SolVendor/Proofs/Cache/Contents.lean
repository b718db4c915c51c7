import SolVendor.Proofs.Cache.Plain
import SolVendor.Proofs.Cache.Stages
/-!
# Cache — the contents of a tree

Fetchers that write the same entries make the same tree: the entries, and
the directories that these are in (`contents`). So several calls can be
writing them to one staging tree, which never holds anything else
(`IsInUse.plant`); and if it holds all of them when it is moved, the tree is
complete (`IsInUse.place`). A tree that is complete already is replaced by
nothing but itself.
-/

namespace SolVendor

open FileSystem

variable {entries : List (Location × Entry)} {h g : Host} {dir loc k rel : Location} {p q : Path}
  {e : Entry}

/-- What entries make, relative to the place at which they are written. -/
def contents (entries : List (Location × Entry)) (rel : Location) : Option Entry :=
  if rel = [] then some .dir
  else
    match entries.lookup rel with
    | some e => some e
    | none => if entries.any fun w => rel.isPrefixOf w.1 then some .dir else none

/-- The entries have names, do not contradict each other, and are in directories. -/
structure AreConsistent (entries : List (Location × Entry)) : Prop where
  names : ∀ w ∈ entries, w.1 ≠ [] ∧ ∀ n ∈ w.1, IsFileName n
  entry : ∀ w ∈ entries, contents entries w.1 = some w.2
  above : ∀ w ∈ entries, ∀ rel ∈ Location.above w.1, contents entries rel = some .dir

/-- The fetcher delivers all of the entries and nothing else, in any order, and ends at what it cannot
write. A call may fail or crash after it has written them. -/
def Fetcher.Delivers (fetcher : Fetcher) (d : Dependency) (entries : List (Location × Entry)) : Prop :=
  ∀ calls p, ∃ written ending, fetcher calls d p = ⟨some written, true, ending⟩ ∧
    ∀ w, w ∈ written ↔ w ∈ entries

/-- What is among the contents is the place itself, an entry, or above one. -/
theorem exists_of_contents (hc : contents entries rel = some e) :
    rel = [] ∨ ∃ w ∈ entries, rel <+: w.1 := by
  unfold contents at hc
  split at hc
  · rename_i hnil
    exact .inl hnil
  · split at hc
    · rename_i e' hlookup
      obtain ⟨l, r, hentries, -⟩ := List.lookup_eq_some_iff.1 hlookup
      exact .inr ⟨(rel, e'), by simp [hentries], List.prefix_refl rel⟩
    · split at hc
      · rename_i hany
        obtain ⟨w, hw, hpre⟩ := List.any_eq_true.1 hany
        exact .inr ⟨w, hw, List.isPrefixOf_iff_prefix.1 hpre⟩
      · cases hc

/-- The path, and the name that it ends in, can be looked up. -/
def CanName (p : Path) (n : OsString) : Prop :=
  checkPath p = .ok () ∧ isTooLong n = false

namespace Storage

variable {s : Storage} {d : Dependency}

/-- The tree is there, and it holds just what the entries make. -/
def IsComplete (s : Storage) (d : Dependency) (entries : List (Location × Entry)) (h : Host) : Prop :=
  ∃ loc, h.files.Names h.cwd (s.treePath d) loc ∧
    ∀ rel, h.files.get? (loc ++ rel) = contents entries rel

theorem Houses.isComplete_iff (hh : s.Houses d dir h) (hd : d.IsAccepted) :
    s.IsComplete d entries h ↔ CanName (s.treePath d) d.treeName ∧
      ∀ rel, h.files.get? (dir ++ [d.treeName] ++ rel) = contents entries rel := by
  constructor
  · rintro ⟨loc, hname, hrel⟩
    obtain ⟨rfl, hcan⟩ := (hh.names_tree_iff hd).1 hname
    exact ⟨hcan, hrel⟩
  · rintro ⟨hcan, hrel⟩
    exact ⟨_, (hh.names_tree_iff hd).2 ⟨rfl, hcan⟩, hrel⟩

/-- Calls may be writing entries to the staging tree. It holds nothing else, and it can be removed without
the way to it. The tree is complete, or nothing is there. -/
structure IsInUse (s : Storage) (d : Dependency) (entries : List (Location × Entry)) (dir : Location)
    (h : Host) : Prop where
  cwd_dir : h.files.get? h.cwd.place = some .dir
  houses : s.Houses d dir h
  anchored : CanName (s.stagingPath d) d.stagingName →
    s.Houses d dir { h with files := h.files.cut (dir ++ [d.stagingName]) } ∧
      (h.files.cut (dir ++ [d.stagingName])).get? h.cwd.place = some .dir
  isOpen : CanName (s.stagingPath d) d.stagingName → h.files.IsOpen (dir ++ [d.stagingName])
  staged : CanName (s.stagingPath d) d.stagingName → ∀ {rel e},
    h.files.get? (dir ++ [d.stagingName] ++ rel) = some e → contents entries rel = some e
  tree : CanName (s.treePath d) d.treeName →
    (∀ rel, h.files.get? (dir ++ [d.treeName] ++ rel) = none) ∨
      ∀ rel, h.files.get? (dir ++ [d.treeName] ++ rel) = contents entries rel

/-- Only the files count, and the directory they are seen from. -/
theorem IsInUse.congr (hu : s.IsInUse d entries dir h) (hfiles : g.files = h.files)
    (hcwd : g.cwd = h.cwd) : s.IsInUse d entries dir g := by
  obtain ⟨hcwd', ⟨hleads, hdir⟩, hanchored, hopen, hstaged, htree⟩ := hu
  rw [← hfiles] at hdir hopen hstaged htree
  rw [← hfiles, ← hcwd] at hcwd' hleads
  refine ⟨hcwd', ⟨hleads, hdir⟩, fun hcan => ?_, hopen, hstaged, htree⟩
  obtain ⟨⟨hleads', hdir'⟩, hcwd''⟩ := hanchored hcan
  rw [← hfiles] at hdir'
  rw [← hfiles, ← hcwd] at hleads' hcwd''
  exact ⟨⟨hleads', hdir'⟩, hcwd''⟩

theorem IsComplete.congr (hc : s.IsComplete d entries h) (hfiles : g.files = h.files)
    (hcwd : g.cwd = h.cwd) : s.IsComplete d entries g := by
  unfold IsComplete at hc ⊢
  rw [hfiles, hcwd]
  exact hc

/-- Nothing is at the staging path: it may be used. -/
theorem isInUse_of_vacant (hcwd : h.files.get? h.cwd.place = some .dir) (hh : s.Houses d dir h)
    (hvacant : CanName (s.stagingPath d) d.stagingName →
      ∀ rel, h.files.get? (dir ++ [d.stagingName] ++ rel) = none)
    (htree : CanName (s.treePath d) d.treeName →
      (∀ rel, h.files.get? (dir ++ [d.treeName] ++ rel) = none) ∨
        ∀ rel, h.files.get? (dir ++ [d.treeName] ++ rel) = contents entries rel) :
    s.IsInUse d entries dir h where
  cwd_dir := hcwd
  houses := hh
  anchored hcan := by
    have hext : (h.files.cut (dir ++ [d.stagingName])).Extends h.files :=
      extends_cut (hvacant hcan) fun _ he => he
    exact ⟨hh.mono rfl hext.retains, hext _ _ hcwd⟩
  isOpen hcan rel n e he := by
    rw [List.append_assoc, hvacant hcan] at he
    cases he
  staged hcan rel e he := by
    rw [hvacant hcan] at he
    cases he
  tree := htree

/-- **The staging path has been cleared.** -/
theorem IsUnfetched.isInUse (hu : s.IsUnfetched d h) (hd : d.IsAccepted) (hh : s.Houses d dir h)
    (hvacant : s.IsVacant d h) : s.IsInUse d entries dir h :=
  isInUse_of_vacant hu.cwd_dir hh (fun hcan => hvacant ((hh.names_staging_iff hd).2 ⟨rfl, hcan⟩))
    fun hcan => .inl (hu.tree ((hh.names_tree_iff hd).2 ⟨rfl, hcan⟩))

namespace IsInUse

variable (hu : s.IsInUse d entries dir h)

include hu

/-- **A tree that is cached is complete.** -/
theorem isComplete (hd : d.IsAccepted) (hcached : s.isCached d h = true) :
    s.IsComplete d entries h := by
  obtain ⟨pos, hpos, hs⟩ := isDir_iff.1 hcached
  obtain ⟨hcheck, hl⟩ := locate_eq_ok_iff.1 hpos
  have hl := leads_pieces_of_steps hl
  rw [pieces_treePath hd, List.append_cons] at hl
  obtain ⟨mid, l, hmid, hw⟩ := hl.exists_of_append
  obtain rfl := hmid.unique hu.houses.leads
  -- Something has the name of the tree, so that is not vacant.
  have hat : ∀ {e}, isTooLong d.treeName = false → h.files.get? (dir ++ [d.treeName]) = some e →
      s.IsComplete d entries h := by
    intro e hn he
    rcases hu.tree ⟨hcheck, hn⟩ with hnone | hall
    · have hnone := hnone []
      rw [List.append_nil, he] at hnone
      cases hnone
    · exact (hu.houses.isComplete_iff hd).2 ⟨⟨hcheck, hn⟩, hall⟩
  cases hw with
  | name _ _ hn he _ _ => exact hat hn he
  | link _ _ hn he _ => exact hat hn he

/-- What is not at the staging path or below is as it was, and what is there is as before or vacant. -/
theorem mono_tree (hd : d.IsAccepted) (hh : s.Houses d dir g)
    (htree : ∀ rel, g.files.get? (dir ++ [d.treeName] ++ rel) =
      h.files.get? (dir ++ [d.treeName] ++ rel)) (hc : s.IsComplete d entries h) :
    s.IsComplete d entries g := by
  obtain ⟨hcan, hall⟩ := (hu.houses.isComplete_iff hd).1 hc
  exact (hh.isComplete_iff hd).2 ⟨hcan, fun rel => (htree rel).trans (hall rel)⟩

/-- **The staging tree is removed.** -/
theorem remove {files : FileSystem} (hd : d.IsAccepted)
    (hrm : h.files.removeTree h.cwd (s.stagingPath d) = .ok files) :
    s.IsInUse d entries dir (h.withFiles files) ∧
      (s.IsComplete d entries h → s.IsComplete d entries (h.withFiles files)) := by
  obtain ⟨loc, hname, rfl⟩ := removeTree_spec hrm
  obtain ⟨rfl, hcan⟩ := (hu.houses.names_staging_iff hd).1 hname
  obtain ⟨hh, hcwd⟩ := hu.anchored hcan
  rw [Host.withFiles_eq hcwd]
  have htree : ∀ rel, (h.files.cut (dir ++ [d.stagingName])).get? (dir ++ [d.treeName] ++ rel) =
      h.files.get? (dir ++ [d.treeName] ++ rel) :=
    fun rel => get?_cut_of_apart (stagingName_apart dir rel)
  refine ⟨isInUse_of_vacant hcwd hh (fun _ => get?_cut_append hname.ne_nil) fun hcan => ?_,
    hu.mono_tree hd hh htree⟩
  rcases hu.tree hcan with hnone | hall
  · exact .inl fun rel => (htree rel).trans (hnone rel)
  · exact .inr fun rel => (htree rel).trans (hall rel)

end IsInUse

/-! ## Writing to it -/

/-- The staging tree is in use before and after. What it has held it holds still, unless the tree is
complete; and that it stays. -/
structure Advances (s : Storage) (d : Dependency) (entries : List (Location × Entry)) (dir : Location)
    (h g : Host) : Prop where
  isInUse : s.IsInUse d entries dir g
  complete : s.IsComplete d entries h → s.IsComplete d entries g
  kept : s.IsComplete d entries g ∨ ∀ {rel e}, h.files.get? (dir ++ [d.stagingName] ++ rel) = some e →
    g.files.get? (dir ++ [d.stagingName] ++ rel) = some e

/-- An entry of the staging tree may be planted there. -/
theorem IsInUse.isPlantable (hu : s.IsInUse d entries dir h) (hd : d.IsAccepted)
    (hcan : CanName (s.stagingPath d) d.stagingName)
    (hq : q.pieces = (s.stagingPath d).pieces ++ rel.map .name) (hslash : q.endsInSlash = false)
    (he : contents entries rel = some e)
    (habove : ∀ r, r <+: rel → r ≠ rel → contents entries r = some .dir) :
    ∃ p above n, above ++ [n] = d.stagingName :: rel ∧ h.IsPlantable p dir above n q e := by
  obtain ⟨p, hp, hl⟩ := hu.houses.exists_pieces_staging hd
  obtain ⟨above, n, hnames⟩ := (List.eq_nil_or_concat (d.stagingName :: rel)).resolve_left (by simp)
  rw [List.concat_eq_append] at hnames
  refine ⟨p, above, n, hnames.symm, ⟨hu.cwd_dir, hl, hu.houses.dir⟩, ?_, hslash, ?_, ?_⟩
  · rw [hq, hp, ← hnames, List.append_assoc]
    rfl
  · -- Above the entry there are directories only.
    intro above' hpre target hlink
    cases above' with
    | nil =>
      rw [List.append_nil, hu.houses.dir] at hlink
      cases hlink
    | cons m r =>
      have hlong : m :: r <+: d.stagingName :: rel := by
        rw [hnames]
        exact hpre.trans (List.prefix_append above [n])
      obtain ⟨rfl, hr⟩ := List.cons_prefix_cons.1 hlong
      have hne : r ≠ rel := by
        rintro rfl
        have hlen := hpre.length_le
        have hlen' := congrArg List.length hnames
        rw [List.length_append, List.length_singleton] at hlen'
        omega
      rw [List.append_cons] at hlink
      have hcontents := hu.staged hcan hlink
      rw [habove r hr hne] at hcontents
      cases hcontents
  · intro hlink target htarget
    rw [← hnames, List.append_cons] at htarget
    have hcontents := hu.staged hcan htarget
    rw [he] at hcontents
    exact hlink target (Option.some.inj hcontents)

/-- **All that is new is what the contents are at its place**, in a directory and under a name. -/
theorem IsInUse.of_plant_ne (hu : s.IsInUse d entries dir h) (hd : d.IsAccepted)
    (hcan : CanName (s.stagingPath d) d.stagingName)
    (hq : q.pieces = (s.stagingPath d).pieces ++ rel.map .name) (hslash : q.endsInSlash = false)
    (he : contents entries rel = some e)
    (habove : ∀ r, r <+: rel → r ≠ rel → contents entries r = some .dir)
    (hk : (Action.run (Action.plant q e) h).2.files.get? k ≠ h.files.get? k) :
    ∃ r, k = dir ++ [d.stagingName] ++ r ∧
      (Action.run (Action.plant q e) h).2.files.get? k = contents entries r ∧
      ∀ above n, k = above ++ [n] → (Action.run (Action.plant q e) h).2.files.get? above = some .dir ∧
        isTooLong n = false ∧ IsFileName n := by
  obtain ⟨p, above, n, hnames, hp⟩ := hu.isPlantable hd hcan hq hslash he habove
  obtain ⟨hat, ⟨names, hpre, hne, rfl⟩, hnamed⟩ := hp.of_plant_ne hk
  rw [hnames] at hat hpre
  obtain ⟨m, r, rfl⟩ := List.exists_cons_of_ne_nil hne
  obtain ⟨rfl, hr⟩ := List.cons_prefix_cons.1 hpre
  refine ⟨r, List.append_cons dir _ r, hat.trans ?_, hnamed⟩
  by_cases heq : r = rel
  · rw [heq, if_pos rfl, he]
  · rw [if_neg fun hcons => heq (List.cons.inj (List.append_cancel_left hcons)).2, habove r hr heq]

/-- **An entry is written to the staging tree.** -/
theorem IsInUse.plant {res : Except Failure Unit} (hu : s.IsInUse d entries dir h) (hd : d.IsAccepted)
    (hcan : CanName (s.stagingPath d) d.stagingName)
    (hq : q.pieces = (s.stagingPath d).pieces ++ rel.map .name) (hslash : q.endsInSlash = false)
    (he : contents entries rel = some e)
    (habove : ∀ r, r <+: rel → r ≠ rel → contents entries r = some .dir)
    (hrun : Action.run (Action.plant q e) h = (res, g)) :
    s.Advances d entries dir h g ∧
      (res = .ok () → g.files.get? (dir ++ [d.stagingName] ++ rel) = some e) := by
  have hkeeps := Host.Keeps.plant hu.cwd_dir q e
  have hnew := fun {k} => hu.of_plant_ne (k := k) hd hcan hq hslash he habove
  rw [hrun] at hkeeps hnew
  have houtside : ∀ {k}, ¬ dir ++ [d.stagingName] <+: k → g.files.get? k = h.files.get? k := by
    intro k hk
    by_contra hne
    obtain ⟨r, rfl, -⟩ := hnew hne
    exact hk (List.prefix_append _ r)
  have hwithin : ∀ {r e'}, g.files.get? (dir ++ [d.stagingName] ++ r) = some e' →
      contents entries r = some e' := by
    intro r e' he'
    by_cases hsame : g.files.get? (dir ++ [d.stagingName] ++ r) =
        h.files.get? (dir ++ [d.stagingName] ++ r)
    · rw [hsame] at he'
      exact hu.staged hcan he'
    · obtain ⟨r', hr', hat, -⟩ := hnew hsame
      obtain rfl := List.append_cancel_left hr'
      exact hat.symm.trans he'
  have hkept : ∀ {r e'}, h.files.get? (dir ++ [d.stagingName] ++ r) = some e' →
      g.files.get? (dir ++ [d.stagingName] ++ r) = some e' := by
    intro r e' he'
    by_cases hsame : g.files.get? (dir ++ [d.stagingName] ++ r) =
        h.files.get? (dir ++ [d.stagingName] ++ r)
    · exact hsame.trans he'
    · obtain ⟨r', hr', hat, -⟩ := hnew hsame
      obtain rfl := List.append_cancel_left hr'
      exact hat.trans (hu.staged hcan he')
  have hh : s.Houses d dir g := hu.houses.mono hkeeps.cwd hkeeps.files
  have htree : ∀ r, g.files.get? (dir ++ [d.treeName] ++ r) = h.files.get? (dir ++ [d.treeName] ++ r) :=
    fun r => houtside (stagingName_apart dir r)
  refine ⟨⟨⟨hkeeps.cwd_dir hu.cwd_dir, hh, fun _ => ?_, fun _ r n e' he' => ?_, fun _ => hwithin,
    fun hcan' => ?_⟩, hu.mono_tree hd hh htree, .inr hkept⟩, fun hok => ?_⟩
  · -- Without the staging tree the hosts are the same.
    have hne : dir ++ [d.stagingName] ≠ [] := by simp
    have hext : (g.files.cut (dir ++ [d.stagingName])).Extends
        (h.files.cut (dir ++ [d.stagingName])) := by
      refine extends_cut (get?_cut_append hne) fun hk he' => ?_
      rw [get?_cut_of_apart hk] at he'
      exact (houtside hk).trans he'
    obtain ⟨hh', hcwd⟩ := hu.anchored hcan
    rw [hkeeps.cwd]
    exact ⟨hh'.mono rfl hext.retains, hext _ _ hcwd⟩
  · by_cases hsame : g.files.get? (dir ++ [d.stagingName] ++ r ++ [n]) =
        h.files.get? (dir ++ [d.stagingName] ++ r ++ [n])
    · rw [hsame] at he'
      obtain ⟨hdir, hname⟩ := hu.isOpen hcan r n e' he'
      exact ⟨hkept hdir, hname⟩
    · obtain ⟨-, -, -, hnamed⟩ := hnew hsame
      exact hnamed _ n rfl
  · rcases hu.tree hcan' with hnone | hall
    · exact .inl fun r => (htree r).trans (hnone r)
    · exact .inr fun r => (htree r).trans (hall r)
  · obtain ⟨p, above, n, hnames, hp⟩ := hu.isPlantable hd hcan hq hslash he habove
    rw [hok] at hrun
    have hat := hp.get?_of_plant hrun
    rw [hnames, List.append_cons] at hat
    exact hat

/-- **The destination is made**, or its path is one that nothing can be made at. -/
theorem IsInUse.plant_destination {res : Except Failure Unit} (hu : s.IsInUse d entries dir h)
    (hd : d.IsAccepted) (hrun : Action.run (Action.plant (s.stagingPath d) .dir) h = (res, g)) :
    s.Advances d entries dir h g ∧ (res = .ok () → CanName (s.stagingPath d) d.stagingName ∧
      g.files.get? (dir ++ [d.stagingName]) = some .dir) := by
  obtain ⟨-, -, -, -, -, hslash⟩ := pieces_stagingPath (s := s) hd
  by_cases hcan : CanName (s.stagingPath d) d.stagingName
  · have hpieces : (s.stagingPath d).pieces =
        (s.stagingPath d).pieces ++ ([] : Location).map .name := (List.append_nil _).symm
    obtain ⟨hadv, hok⟩ := hu.plant hd hcan hpieces hslash rfl
      (fun r hr hne => absurd (List.prefix_nil.1 hr) hne) hrun
    rw [List.append_nil] at hok
    exact ⟨hadv, fun h => ⟨hcan, hok h⟩⟩
  · have hnot : ∀ {loc}, ¬ h.files.Names h.cwd (s.stagingPath d) loc :=
      fun hname => hcan ((hu.houses.names_staging_iff hd).1 hname).2
    have hready := hu.houses.isReady hd hu.cwd_dir fun hname => absurd hname hnot
    have hmake : Action.run (Action.makeDirs (s.stagingPath d)) h = (res, g) := hrun
    rw [Action.run_makeDirs] at hmake
    obtain ⟨hres, rfl⟩ := Prod.mk.inj hmake
    have hsame : (h.files.makeDirs h.cwd (s.stagingPath d)).2 = h.files := by
      rcases makeFirst_eq_or_exists h.cwd (s.stagingPath d).ancestors h.files with
        hsame | ⟨k, hnone, hdir⟩
      · exact hsame
      · exact absurd (hready.names_of_makeDirs hdir hnone) hnot
    rw [hsame]
    refine ⟨⟨hu, id, .inr id⟩, fun hok => ?_⟩
    rw [hok] at hres
    cases hmk : (h.files.makeDirs h.cwd (s.stagingPath d)).1 with
    | ok u =>
      obtain ⟨loc, hname⟩ := hready.exists_names hmk
      exact absurd hname hnot
    | error e =>
      rw [hmk] at hres
      cases hres

/-! ## Moving it -/

/-- **A staging tree that holds all the entries is moved**, or the tree is there already and stays. -/
theorem IsInUse.place {files : FileSystem} (hu : s.IsInUse d entries dir h) (hd : d.IsAccepted)
    (hfull : s.IsComplete d entries h ∨
      ∀ rel, h.files.get? (dir ++ [d.stagingName] ++ rel) = contents entries rel)
    (hrn : h.files.rename h.cwd (s.stagingPath d) (s.treePath d) = .ok files) :
    s.IsInUse d entries dir (h.withFiles files) ∧ s.IsComplete d entries (h.withFiles files) := by
  obtain ⟨src, dst, e, hsrc, hdst, he, hfiles⟩ := rename_spec hrn
  obtain ⟨rfl, hcan⟩ := (hu.houses.names_staging_iff hd).1 hsrc
  obtain ⟨rfl, hcan'⟩ := (hu.houses.names_tree_iff hd).1 hdst
  have hapart : ∀ rel, ¬ dir ++ [d.stagingName] <+: dir ++ [d.treeName] ++ rel := stagingName_apart dir
  have hne : dir ++ [d.stagingName] ≠ dir ++ [d.treeName] :=
    fun heq => hapart [] ⟨[], by rw [heq]⟩
  obtain ⟨-, rfl⟩ := hfiles.resolve_left fun h => hne h.1
  obtain rfl : e = .dir := by
    have hcontents := hu.staged hcan (show h.files.get? (dir ++ [d.stagingName] ++ []) = some e by
      rw [List.append_nil, he])
    exact (Option.some.inj hcontents).symm
  obtain ⟨hold, hbelow⟩ := vacant_of_rename_dir hrn hsrc hdst he hne
  -- If the tree was complete then it was empty, and so is the staging tree.
  have hfull : ∀ rel, h.files.get? (dir ++ [d.stagingName] ++ rel) = contents entries rel := by
    rcases hfull with hc | hall
    · obtain ⟨-, hall⟩ := (hu.houses.isComplete_iff hd).1 hc
      intro rel
      by_cases hrel : rel = []
      · rw [hrel, List.append_nil, he]
        rfl
      · have hnone : contents entries rel = none := (hall rel).symm.trans (hbelow rel hrel)
        rw [hnone, Option.eq_none_iff_forall_ne_some]
        intro e' he'
        rw [hu.staged hcan he'] at hnone
        cases hnone
    · exact hall
  have hmoved : ∀ rel, (h.files.graft (dir ++ [d.stagingName]) (dir ++ [d.treeName])).get?
      (dir ++ [d.treeName] ++ rel) = contents entries rel :=
    fun rel => (get?_graft_append hsrc.ne_nil hdst.ne_nil rel).trans (hfull rel)
  have hgone : ∀ rel, (h.files.graft (dir ++ [d.stagingName]) (dir ++ [d.treeName])).get?
      (dir ++ [d.stagingName] ++ rel) = none := by
    intro rel
    have hnot : ¬ dir ++ [d.treeName] <+: dir ++ [d.stagingName] ++ rel := by
      intro hpre
      rw [List.append_assoc, List.prefix_append_right_inj, List.singleton_append,
        List.cons_prefix_cons] at hpre
      exact Dependency.not_stagesAs_self d ⟨rfl, hpre.1.symm⟩
    rw [get?_graft_of_apart hsrc.ne_nil hnot, if_pos (List.prefix_append _ rel)]
  -- Nothing but the two trees has changed, and the directory of the owner is found without them.
  have hext : (h.files.graft (dir ++ [d.stagingName]) (dir ++ [d.treeName])).Extends
      (h.files.cut (dir ++ [d.stagingName])) := by
    refine extends_graft hsrc.ne_nil hdst.ne_nil (get?_cut_append hsrc.ne_nil) (fun {rel e} he' => ?_)
      fun hk he' => (get?_cut_of_apart hk).symm.trans he'
    rw [get?_cut_of_apart (hapart rel)] at he'
    by_cases hrel : rel = []
    · subst hrel
      rw [List.append_nil] at he' ⊢
      rcases hold with hnone | hdir
      · rw [hnone] at he'
        cases he'
      · rw [he, ← hdir, he']
    · rw [hbelow rel hrel] at he'
      cases he'
  obtain ⟨hh, hcwd⟩ := hu.anchored hcan
  have hcwd := hext _ _ hcwd
  rw [Host.withFiles_eq hcwd]
  have hh : s.Houses d dir
      { h with files := h.files.graft (dir ++ [d.stagingName]) (dir ++ [d.treeName]) } :=
    hh.mono rfl hext.retains
  exact ⟨isInUse_of_vacant hcwd hh (fun _ => hgone) fun _ => .inr hmoved,
    (hh.isComplete_iff hd).2 ⟨hcan', hmoved⟩⟩

/-- **A staging tree that holds all the entries** holds what they make: the directories above them are
there as well. -/
theorem IsInUse.full (hu : s.IsInUse d entries dir h) (hcan : CanName (s.stagingPath d) d.stagingName)
    (hdir : h.files.get? (dir ++ [d.stagingName]) = some .dir)
    (hc : AreConsistent entries)
    (hall : ∀ w ∈ entries, h.files.get? (dir ++ [d.stagingName] ++ w.1) = some w.2) (rel : Location) :
    h.files.get? (dir ++ [d.stagingName] ++ rel) = contents entries rel := by
  cases hcontents : contents entries rel with
  | none =>
    rw [Option.eq_none_iff_forall_ne_some]
    intro e he
    rw [hu.staged hcan he] at hcontents
    cases hcontents
  | some e =>
    rcases exists_of_contents hcontents with rfl | ⟨w, hw, rest, hrest⟩
    · rw [List.append_nil, hdir]
      exact hcontents
    · have hat := hall w hw
      by_cases hnil : rest = []
      · rw [hnil, List.append_nil] at hrest
        rw [hrest, hat, ← hcontents, hrest]
        exact (hc.entry w hw).symm
      · have hne : rel ≠ w.1 := by
          rintro heq
          rw [← heq] at hrest
          exact hnil (List.append_right_eq_self.1 hrest)
        rw [← hrest] at hat
        rw [(hu.isOpen hcan).get?_above hnil hat, ← hcontents,
          hc.above w hw rel (Location.mem_above.2 ⟨⟨rest, hrest⟩, hne⟩)]

end Storage

end SolVendor
