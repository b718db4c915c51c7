import SolVendor.Proofs.Graph.Reachability
import SolVendor.Proofs.Install.Orders
/-!
# Install — exports one after the other

Closures may be exported to the same destination one after the other. A
copy that is complete stays so while others are made
(`IsComplete.andThen`), and what can be copied still can be when some of it
has been (`IsFeasible.of_grown`). So it makes no difference in which order
two closures are exported, nor whether they are exported as one, nor
whether a closure that is there already is exported again
(`adds_up`): the host that is left is told by the files that have been
copied.
-/

namespace SolVendor.Export

open FileSystem SolVendor.Path

variable {h t u : Host} {tree dest : Path} {todo todo' all : List Location} {names : Location}
  {k : Location}

/-! ## Parts of an export -/

theorem IsOnWay.mono (hsub : todo ⊆ all) (hk : IsOnWay h dest todo k) : IsOnWay h dest all k := by
  obtain ⟨names, hmem, hway⟩ := hk
  exact ⟨names, hsub hmem, hway⟩

/-- What has grown by some copies has grown by more of them. -/
theorem IsGrown.mono (hsub : todo ⊆ all) (hg : IsGrown h dest todo t) : IsGrown h dest all t := by
  refine Host.Grows.mono_way (Host.Grows.mono hg fun k => ?_) fun k => IsOnWay.mono hsub
  rintro ⟨i, names, hi, hk⟩
  obtain ⟨j, hj⟩ := List.getElem?_of_mem (hsub (List.mem_of_getElem? hi))
  exact ⟨j, names, hj, hk⟩

/-- The files grow on from where others have ended. -/
theorem IsGrown.andThen (hg : IsGrown h dest all t) (hg' : IsGrown t dest all u) : IsGrown h dest all u := by
  unfold IsGrown IsOnWay IsTarget at hg'
  rw [Host.Grows.cwd hg] at hg'
  exact Host.Grows.trans hg hg'

/-- A part of what can be copied can be copied. -/
theorem IsStart.of_subset (hs : IsStart tree dest all h) (hsub : todo ⊆ all) (hnodup : todo.Nodup) :
    IsStart tree dest todo h where
  wellFormed := hs.wellFormed
  cwd_dir := hs.cwd_dir
  names names hmem := hs.names names (hsub hmem)
  nodup := hnodup
  plain := hs.plain
  source names hmem := hs.source names (hsub hmem)

theorem IsFeasible.of_subset (hf : IsFeasible h dest all) (hsub : todo ⊆ all) : IsFeasible h dest todo where
  passable names hmem := hf.passable names (hsub hmem)
  short names hmem := hf.short names (hsub hmem)
  last names hmem := hf.last names (hsub hmem)
  vacant_or_file names hmem := hf.vacant_or_file names (hsub hmem)
  apart names hmem k hk hway := hf.apart names (hsub hmem) k hk (hway.mono hsub)

/-! ## Starting from where others have ended -/

section

variable (hs : IsStart tree dest all h) (hg : IsGrown h dest all t)

include hs hg

/-- **After some copies the others can still start.** -/
theorem IsStart.of_grown : IsStart tree dest all t := by
  have hcwd := Host.Grows.cwd hg
  refine ⟨Host.Grows.wellFormed hg hs.wellFormed, (Host.Grows.keeps hg).cwd_dir hs.cwd_dir, hs.names, hs.nodup,
    ⟨?_, fun {k} hk target hlink => ?_⟩, fun names hmem => ?_⟩
  · rw [hcwd]
    exact Host.Grows.isUnlinked hg hs.plain.way
  · rw [hcwd] at hk
    rcases Host.Grows.places hg k with heq | ⟨-, hdir, -⟩ | ⟨-, ⟨bytes, hfile⟩, -⟩
    · exact hs.plain.below hk target (heq ▸ hlink)
    · rw [hdir] at hlink
      cases hlink
    · rw [hfile] at hlink
      cases hlink
  · obtain ⟨pos, bytes, hpos, hfile, hout⟩ := hs.source names hmem
    obtain ⟨hcheck, hl⟩ := locate_eq_ok_iff.1 hpos
    refine ⟨pos, bytes, locate_eq_ok_iff.2 ⟨hcheck, Host.Grows.leads hg hl⟩,
      hg.standing_source hs hfile hout, ?_⟩
    rwa [hcwd]

/-- **The files to copy hold what they held.** -/
theorem IsStart.entryAt_of_grown (hmem : names ∈ all) :
    t.files.entryAt t.cwd (tree.join (.ofNames names)) = h.files.entryAt h.cwd (tree.join (.ofNames names)) := by
  obtain ⟨pos, bytes, hpos, hfile, hout⟩ := hs.source names hmem
  obtain ⟨hcheck, hl⟩ := locate_eq_ok_iff.1 hpos
  rw [entryAt_eq_ok_iff.2 ⟨pos, hpos, hfile⟩, entryAt_eq_ok_iff]
  exact ⟨pos, locate_eq_ok_iff.2 ⟨hcheck, Host.Grows.leads hg hl⟩, hg.standing_source hs hfile hout⟩

omit hs in
/-- **What was feasible is so after some copies**: on the ways there are directories more than before, and at
the targets files. -/
theorem IsFeasible.of_grown (hf : IsFeasible h dest all) : IsFeasible t dest all := by
  have hcwd := Host.Grows.cwd hg
  have htarget : ∀ {k}, (∃ j, IsTarget h dest all j k) → ¬ IsOnWay h dest all k := by
    rintro k ⟨j, names, hj, hk⟩
    exact hf.apart names (List.mem_of_getElem? hj) k hk
  refine ⟨fun names hmem => ?_, hf.short, hf.last, fun names hmem => ?_, fun names hmem k hk hway => ?_⟩
  · rw [hcwd]
    exact Host.Grows.isPassable hg (hf.passable names hmem) fun ds k hds hend ht =>
      htarget ht ⟨names, hmem, ds, hds, hend⟩
  · obtain ⟨k, hk, hat⟩ := hf.vacant_or_file names hmem
    refine ⟨k, hcwd ▸ hk, ?_⟩
    rcases Host.Grows.places hg k with heq | ⟨-, -, hway⟩ | ⟨-, hfile, -⟩
    · rwa [heq]
    · exact absurd hway (hf.apart names hmem k hk)
    · exact .inr hfile
  · unfold IsOnWay at hway
    rw [hcwd] at hk hway
    exact hf.apart names hmem k hk hway

end

/-! ## Complete exports -/

/-- All copies are complete, and nothing else has changed. -/
structure IsComplete (tree dest : Path) (todo : List Location) (h t : Host) : Prop where
  grown : IsGrown h dest todo t
  copied : ∀ names ∈ todo, IsCopied h tree dest todo names t

/-- **Complete exports add up.** What has been copied first stays as it is, unless it is copied again; then
it holds the same. -/
theorem IsComplete.andThen (hs : IsStart tree dest all h)
    (hall : ∀ {names}, names ∈ all ↔ names ∈ todo ∨ names ∈ todo')
    (hc : IsComplete tree dest todo h t) (hc' : IsComplete tree dest todo' t u) :
    IsComplete tree dest all h u := by
  have hsub : todo ⊆ all := fun names hmem => hall.2 (.inl hmem)
  have hsub' : todo' ⊆ all := fun names hmem => hall.2 (.inr hmem)
  have hgt := hc.grown.mono hsub
  have hg := hgt.andThen (hc'.grown.mono hsub')
  have hcwd := Host.Grows.cwd hgt
  refine ⟨hg, fun names hmem => ?_⟩
  by_cases hlast : names ∈ todo'
  · obtain ⟨k, bytes, hbytes, ho⟩ := hc'.copied names hlast
    rw [hs.entryAt_of_grown hgt hmem] at hbytes
    exact ⟨k, bytes, hbytes, hg, ho.names, ho.entry⟩
  · obtain ⟨k, bytes, hbytes, ho⟩ := hc.copied names ((hall.1 hmem).resolve_right hlast)
    refine ⟨k, bytes, hbytes, hg, ?_, ?_⟩
    · rw [Host.Grows.cwd hc'.grown]
      exact ho.names.retained (Host.Grows.retains hc'.grown)
    · refine Host.Grows.get?_of_not_target hc'.grown ho.entry ?_
      -- The place belongs to this copy alone.
      rintro ⟨j, names', hj, hk'⟩
      rw [hcwd] at hk'
      have hmem' := List.mem_of_getElem? hj
      have hname := ho.names
      rw [hcwd] at hname
      have hend := hname.isEnd (hgt.isUnlinked_way hs hmem)
      exact hlast (hs.eq_of_isEnd hmem (hsub' hmem') hend hk' ▸ hmem')

/-- In whatever order its copies are made, the export succeeds and leaves the host; so it does if they are made in
turn. -/
def AlwaysLeaves (tree dest : Path) (g : ImportGraph) (files : NodeSet) (h t : Host) : Prop :=
  ∃ paths, Action.run (run tree dest g files false) h = (.ok paths, t) ∧
    ∀ result u, Ends tree dest g files h result u → result = .ok paths ∧ u = t

section

variable {g : ImportGraph} {files both : NodeSet} {paths : List Path}

/-- A successful end is a complete export. -/
theorem Ends.isComplete (hs : IsStart tree dest todo h) (hpaths : pathsOf g files = .ok (todo.map .ofNames))
    (he : Ends tree dest g files h (.ok paths) t) : IsComplete tree dest todo h t := by
  obtain ⟨ht, ⟨-, hc⟩ | ⟨⟨e, herr⟩, -⟩⟩ := he.settled hs hpaths
  · exact ⟨ht.grown, hc⟩
  · cases herr

/-- **What can be left is left always.** -/
theorem IsComplete.alwaysLeaves (hs : IsStart tree dest todo h)
    (hpaths : pathsOf g files = .ok (todo.map .ofNames)) (hc : IsComplete tree dest todo h t) :
    AlwaysLeaves tree dest g files h t := by
  have hends : ∀ result u, Ends tree dest g files h result u → result = .ok (todo.map .ofNames) ∧ u = t := by
    intro result u he
    obtain ⟨hu, ⟨hok, hcu⟩ | ⟨-, hnot⟩⟩ := he.settled hs hpaths
    · exact ⟨hok, eq_of_copied hs hu.grown hcu hc.grown hc.copied⟩
    · exact absurd (IsFeasible.of_copied hs hc.grown hc.copied) hnot
  obtain ⟨hok, hhost⟩ := hends _ _ (ends_run hs.cwd_dir tree dest g files)
  exact ⟨_, Prod.ext hok hhost, hends⟩

/-- **What is feasible is completed.** -/
theorem IsFeasible.exists_isComplete (hs : IsStart tree dest todo h)
    (hpaths : pathsOf g files = .ok (todo.map .ofNames)) (hf : IsFeasible h dest todo) :
    ∃ t, IsComplete tree dest todo h t := by
  obtain ⟨ht, ⟨-, hc⟩ | ⟨-, hnot⟩⟩ := (ends_run hs.cwd_dir tree dest g files).settled hs hpaths
  · exact ⟨_, ht.grown, hc⟩
  · exact absurd hf hnot

/-- The names that an export copies are those of the paths of its nodes. -/
theorem IsStart.mem_iff (hs : IsStart tree dest todo h) (hpaths : pathsOf g files = .ok (todo.map .ofNames))
    (hproper : ∀ n ∈ names, IsFileName n) : names ∈ todo ↔ Exports g files (.ofNames names) := by
  rw [Exports, ← mem_of_pathsOf hpaths, List.mem_map]
  constructor
  · exact fun hmem => ⟨names, hmem, rfl⟩
  · rintro ⟨names', hmem, heq⟩
    exact eq_of_ofNames_eq (hs.names names' hmem).2 hproper heq ▸ hmem

/-- A part of the nodes has a part of the names. -/
theorem IsStart.subset (hs : IsStart tree dest todo h) (hs' : IsStart tree dest all h)
    (hpaths : pathsOf g files = .ok (todo.map .ofNames)) (hall : pathsOf g both = .ok (all.map .ofNames))
    (hsub : ∀ id ∈ files, id ∈ both) : todo ⊆ all := by
  intro names hmem
  obtain ⟨-, hproper⟩ := hs.names names hmem
  obtain ⟨id, hid, hp⟩ := (hs.mem_iff hpaths hproper).1 hmem
  exact (hs'.mem_iff hall hproper).2 ⟨id, hsub id hid, hp⟩

theorem LiesApart.mono (hapart : LiesApart tree dest g both h) (hsub : ∀ id ∈ files, id ∈ both) :
    LiesApart tree dest g files h := by
  rintro p ⟨id, hid, hp⟩
  exact hapart p ⟨id, hsub id hid, hp⟩

/-- An export that succeeds gives the paths of its nodes. -/
theorem Ends.pathsOf_eq (he : Ends tree dest g files h (.ok paths) t) : pathsOf g files = .ok paths := by
  cases he with
  | copied hp => exact hp

end

/-! ## Two exports to one destination -/

section

variable {g : ImportGraph} {files files' : NodeSet} (hs : IsStart tree dest all h)

include hs

/-- **What is there already may be exported again**, and nothing changes. -/
theorem IsComplete.again (hc : IsComplete tree dest all h u) (hsub : todo ⊆ all) (hnodup : todo.Nodup)
    (hpaths : pathsOf g files = .ok (todo.map .ofNames)) : AlwaysLeaves tree dest g files u u := by
  have hfeasible := IsFeasible.of_copied hs hc.grown hc.copied
  have hstart := (hs.of_grown hc.grown).of_subset hsub hnodup
  obtain ⟨v, hv⟩ := ((hfeasible.of_grown hc.grown).of_subset hsub).exists_isComplete hstart hpaths
  have hboth := hc.andThen hs (fun {names} => ⟨.inl, fun h => h.elim id (hsub ·)⟩) hv
  obtain rfl := eq_of_copied hs hboth.grown hboth.copied hc.grown hc.copied
  exact hv.alwaysLeaves hstart hpaths

variable (hall : ∀ {names}, names ∈ all ↔ names ∈ todo ∨ names ∈ todo')

include hall

/-- **Two exports may change places.** -/
theorem IsComplete.swap (hc : IsComplete tree dest todo h t) (hc' : IsComplete tree dest todo' t u)
    (hnodup : todo.Nodup) (hnodup' : todo'.Nodup) (hpaths : pathsOf g files = .ok (todo.map .ofNames))
    (hpaths' : pathsOf g files' = .ok (todo'.map .ofNames)) :
    ∃ t', IsComplete tree dest todo' h t' ∧ IsComplete tree dest todo t' u := by
  have hsub : todo ⊆ all := fun names hmem => hall.2 (.inl hmem)
  have hsub' : todo' ⊆ all := fun names hmem => hall.2 (.inr hmem)
  have hboth := hc.andThen hs hall hc'
  have hfeasible := IsFeasible.of_copied hs hboth.grown hboth.copied
  -- From the first host the second export is feasible, and from there the first one is.
  obtain ⟨t', ht'⟩ := (hfeasible.of_subset hsub').exists_isComplete (hs.of_subset hsub' hnodup') hpaths'
  have hgrown := ht'.grown.mono hsub'
  obtain ⟨u', hu'⟩ := ((hfeasible.of_grown hgrown).of_subset hsub).exists_isComplete
    ((hs.of_grown hgrown).of_subset hsub hnodup) hpaths
  have hboth' := ht'.andThen hs (fun {names} => hall.trans or_comm) hu'
  obtain rfl := eq_of_copied hs hboth'.grown hboth'.copied hboth.grown hboth.copied
  exact ⟨t', ht', hu'⟩

end

/-- **Exports add up.** If one closure is exported and then another one, then they can be exported in the other
order, and as one closure of all seeds; each way leaves the same host, in whatever order the copies are made.
There, and after the first export, exporting again what has been exported changes nothing. -/
theorem adds_up {g : ImportGraph} {seeds seeds' : List NodeId} {paths paths' : List Path}
    (hfs : h.files.WellFormed) (hcwd : h.files.get? h.cwd.place = some .dir)
    (hg : Tree.graph h.files h.cwd tree = .ok g) (hplain : IsPlain h dest)
    (hapart : LiesApart tree dest g (g.closure (seeds ++ seeds')) h)
    (he : Ends tree dest g (g.closure seeds) h (.ok paths) t)
    (he' : Ends tree dest g (g.closure seeds') t (.ok paths') u) :
    (∃ t', AlwaysLeaves tree dest g (g.closure seeds') h t' ∧ AlwaysLeaves tree dest g (g.closure seeds) t' u) ∧
      AlwaysLeaves tree dest g (g.closure (seeds ++ seeds')) h u ∧
      AlwaysLeaves tree dest g (g.closure seeds) h t ∧ AlwaysLeaves tree dest g (g.closure seeds) t t ∧
      AlwaysLeaves tree dest g (g.closure seeds') t u ∧
      ∀ again ∈ [seeds, seeds', seeds ++ seeds'], AlwaysLeaves tree dest g (g.closure again) u u := by
  have hleft : ∀ id ∈ g.closure seeds, id ∈ g.closure (seeds ++ seeds') := fun id hid =>
    ImportGraph.mem_closure_append.2 (.inl hid)
  have hright : ∀ id ∈ g.closure seeds', id ∈ g.closure (seeds ++ seeds') := fun id hid =>
    ImportGraph.mem_closure_append.2 (.inr hid)
  have hpaths := he.pathsOf_eq
  have hpaths' := he'.pathsOf_eq
  obtain ⟨ps, hps⟩ : ∃ ps, pathsOf g (g.closure (seeds ++ seeds')) = .ok ps := by
    refine exists_pathsOf fun id hid => ?_
    rcases ImportGraph.mem_closure_append.1 hid with hid | hid
    · exact exists_path?_of_pathsOf hpaths hid
    · exact exists_path?_of_pathsOf hpaths' hid
  -- The names of the files, for each closure.
  obtain ⟨all, hs, rfl⟩ := exists_isStart hfs hcwd hg hplain hapart hps
  obtain ⟨todo, hs₁, rfl⟩ := exists_isStart hfs hcwd hg hplain (hapart.mono hleft) hpaths
  obtain ⟨todo', hs₂, rfl⟩ := exists_isStart hfs hcwd hg hplain (hapart.mono hright) hpaths'
  have hsub := hs₁.subset hs hpaths hps hleft
  have hsub' := hs₂.subset hs hpaths' hps hright
  have hall : ∀ {names}, names ∈ all ↔ names ∈ todo ∨ names ∈ todo' := by
    refine fun {names} => ⟨fun hmem => ?_, fun hmem => hmem.elim (hsub ·) (hsub' ·)⟩
    obtain ⟨-, hproper⟩ := hs.names names hmem
    obtain ⟨id, hid, hp⟩ := (hs.mem_iff hps hproper).1 hmem
    refine (ImportGraph.mem_closure_append.1 hid).imp (fun hid => ?_) fun hid => ?_
    · exact (hs₁.mem_iff hpaths hproper).2 ⟨id, hid, hp⟩
    · exact (hs₂.mem_iff hpaths' hproper).2 ⟨id, hid, hp⟩
  have hc := he.isComplete hs₁ hpaths
  have hst := hs.of_grown (hc.grown.mono hsub)
  have hst₂ := hst.of_subset hsub' hs₂.nodup
  have hc' := he'.isComplete hst₂ hpaths'
  have hboth := hc.andThen hs hall hc'
  refine ⟨?_, hboth.alwaysLeaves hs hps, hc.alwaysLeaves hs₁ hpaths,
    hc.again hs₁ (List.Subset.refl todo) hs₁.nodup hpaths, hc'.alwaysLeaves hst₂ hpaths', ?_⟩
  · obtain ⟨t', ht', hu⟩ := hc.swap hs hall hc' hs₁.nodup hs₂.nodup hpaths hpaths'
    have hst' := (hs.of_grown (ht'.grown.mono hsub')).of_subset hsub hs₁.nodup
    exact ⟨t', ht'.alwaysLeaves hs₂ hpaths', hu.alwaysLeaves hst' hpaths⟩
  · simp only [List.forall_mem_cons, List.not_mem_nil, false_imp_iff, implies_true, and_true]
    exact ⟨hboth.again hs hsub hs₁.nodup hpaths, hboth.again hs hsub' hs₂.nodup hpaths',
      hboth.again hs (List.Subset.refl all) hs.nodup hps⟩

/-- The first file and what it imports are exported, and then the last one, which imports it too. -/
theorem adds_up_sample :
    ∃ t u, sampleRun = (.ok [⟨"src/A.sol"⟩, ⟨"src/B.sol"⟩], t) ∧
      Action.run (run ⟨"/t"⟩ ⟨"/d"⟩ sampleGraph (sampleGraph.closure [2]) false) t =
        (.ok [⟨"src/A.sol"⟩, ⟨"src/B.sol"⟩, ⟨"src/C.sol"⟩], u) ∧
      (∃ t', AlwaysLeaves ⟨"/t"⟩ ⟨"/d"⟩ sampleGraph (sampleGraph.closure [2]) sampleHost t' ∧
        AlwaysLeaves ⟨"/t"⟩ ⟨"/d"⟩ sampleGraph (sampleGraph.closure [0]) t' u) ∧
      AlwaysLeaves ⟨"/t"⟩ ⟨"/d"⟩ sampleGraph (sampleGraph.closure [0, 2]) sampleHost u ∧
      AlwaysLeaves ⟨"/t"⟩ ⟨"/d"⟩ sampleGraph (sampleGraph.closure [0]) t t := by
  have hok : ∀ {r : Except Failure (List Path) × Host} {paths}, r.1.toOption = some paths →
      ∃ v, r = (.ok paths, v) := by
    rintro ⟨e | ps, v⟩ paths h
    · cases h
    · exact ⟨v, by rw [← Option.some.inj h]⟩
  have hfirst : sampleRun.1.toOption = some [⟨"src/A.sol"⟩, ⟨"src/B.sol"⟩] := by decide +kernel
  have hsecond : (Action.run (run ⟨"/t"⟩ ⟨"/d"⟩ sampleGraph (sampleGraph.closure [2]) false)
      sampleRun.2).1.toOption = some [⟨"src/A.sol"⟩, ⟨"src/B.sol"⟩, ⟨"src/C.sol"⟩] := by decide +kernel
  have hcwd : sampleRun.2.files.get? sampleRun.2.cwd.place = some .dir := by decide +kernel
  have hends := ends_run (rfl : sampleHost.files.get? sampleHost.cwd.place = some .dir) ⟨"/t"⟩ ⟨"/d"⟩ sampleGraph
    (sampleGraph.closure [0])
  have hends' := ends_run hcwd ⟨"/t"⟩ ⟨"/d"⟩ sampleGraph (sampleGraph.closure [2])
  obtain ⟨t, ht⟩ := hok hfirst
  obtain ⟨u, hu⟩ := hok hsecond
  have hrun : Action.run (run ⟨"/t"⟩ ⟨"/d"⟩ sampleGraph (sampleGraph.closure [0]) false) sampleHost = _ := ht
  rw [hrun] at hends
  rw [ht] at hu hends'
  rw [hu] at hends'
  obtain ⟨hswap, hboth, -, hagain, -⟩ := adds_up (wellFormed_sampleFiles _ _ _ : sampleHost.files.WellFormed) rfl
    graph_sampleHost (isPlain_of_hasNoLinks (hasNoLinks_sampleFiles _ _ _) ⟨"/d"⟩) (liesApart_sampleHost rfl)
    hends hends'
  exact ⟨t, u, ht, hu, hswap, hboth, hagain⟩

end SolVendor.Export
