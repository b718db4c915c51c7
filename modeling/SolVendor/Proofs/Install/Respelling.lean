import SolVendor.Proofs.Install.Increments
/-!
# Install — one destination in several spellings

Paths of the same pieces lead to the same place, however they are spelled.
So an export leaves the same host however its destination is spelled, as
long as the paths of the copies are not too long for the file system
(`alwaysLeaves_respelled`).

Discovery does see the spelling. By its path it looks up every directory
below the destination, also one that holds no copy, and is there because
the way to the destination goes down through it and up again. No graph is
built where such a path is too long (`checkPath_of_graph`). So there are
copies that are complete and cannot be discovered
(`leaves_undiscoverable_copy`).
-/

namespace SolVendor

open FileSystem SolVendor.Path

namespace Path

variable {p q : Path} {n : Nat}

/-- The path with some slashes at its end. -/
def withSlashes (p : Path) (n : Nat) : Path :=
  ⟨⟨p.os.bytes ++ List.replicate n slash⟩⟩

/-- **Slashes at the end are no pieces.** -/
theorem pieces_withSlashes (hne : p ≠ .empty) : (p.withSlashes n).pieces = p.pieces := by
  have habs : (p.withSlashes n).isAbsolute = p.isAbsolute := by
    unfold isAbsolute withSlashes
    rw [List.head?_append_of_ne_nil]
    exact fun hnil => hne (eq_empty_iff.2 hnil)
  have hslashes : ∀ k bs, piecesOf (bs ++ List.replicate k slash) = piecesOf bs := by
    intro k bs
    induction k with
    | zero => rw [List.replicate_zero, List.append_nil]
    | succ k ih => rw [List.replicate_succ', ← List.append_assoc, piecesOf_concat_slash, ih]
  rw [pieces_eq, pieces_eq, habs, withSlashes, hslashes]

theorem length_withSlashes : (p.withSlashes n).os.bytes.length = p.os.bytes.length + n := by
  rw [withSlashes, List.length_append, List.length_replicate]

/-- What follows the slashes is written right behind them. -/
theorem bytes_join_withSlashes (hq : q.isAbsolute = false) :
    ((p.withSlashes (n + 1)).join q).os.bytes = (p.withSlashes (n + 1)).os.bytes ++ q.os.bytes := by
  have hslash : (p.withSlashes (n + 1)).endsInSlash = true := by
    unfold endsInSlash withSlashes
    rw [List.replicate_succ', ← List.append_assoc, List.getLast?_concat]
    rfl
  rw [bytes_join hq, hslash, Bool.or_true]
  rfl

/-- The slashes count as much as any other bytes do. -/
theorem checkPath_join_withSlashes (hq : q.isAbsolute = false) :
    checkPath ((p.withSlashes (n + 1)).join q) = .ok () ↔
      0 ∉ p.os.bytes ∧ 0 ∉ q.os.bytes ∧
        p.os.bytes.length + (n + 1) + q.os.bytes.length ≤ maxPath := by
  have hne : (p.withSlashes (n + 1)).join q ≠ .empty := by
    rw [ne_eq, eq_empty_iff, bytes_join_withSlashes hq]
    intro hnil
    have hlength := congrArg List.length hnil
    rw [List.length_append, length_withSlashes, List.length_nil] at hlength
    omega
  have hnul : 0 ∉ (p.withSlashes (n + 1)).os.bytes ↔ 0 ∉ p.os.bytes := by
    have hslash : ¬ (0 : UInt8) = slash := by decide
    simp [withSlashes, hslash]
  rw [checkPath_eq_ok_iff, bytes_join_withSlashes hq, List.length_append, length_withSlashes,
    List.mem_append, not_or, hnul, and_assoc]
  simp only [ne_eq, hne, not_false_eq_true, true_and]

end Path

namespace Export

variable {h t : Host} {tree dest dest' : Path} {todo : List Location} {names : Location} {k : Location}
  {g : ImportGraph} {files : NodeSet} {paths : List Path}

/-! ## The same pieces -/

section

variable (hp : dest'.pieces = dest.pieces)

include hp

theorem pieces_copyPath (hproper : ∀ n ∈ names, IsFileName n) :
    (copyPath dest' names).pieces = (copyPath dest names).pieces := by
  rw [pieces_join_ofNames hproper, pieces_join_ofNames hproper, hp]

theorem isWithin_respelled {cwd : Position} : IsWithin cwd dest' k ↔ IsWithin cwd dest k := by
  unfold IsWithin
  rw [hp]

theorem IsPlain.respelled (hplain : IsPlain h dest) : IsPlain h dest' where
  way := by
    rw [hp]
    exact hplain.way
  below hk := hplain.below ((isWithin_respelled hp).1 hk)

/-- **The files grow at the same places.** -/
theorem IsGrown.respelled (hproper : ∀ names ∈ todo, ∀ n ∈ names, IsFileName n)
    (hg : IsGrown h dest todo t) : IsGrown h dest' todo t := by
  refine Host.Grows.mono_way (Host.Grows.mono hg ?_) ?_
  · rintro k ⟨j, names, hj, hk⟩
    refine ⟨j, names, hj, ?_⟩
    unfold Position.IsEnd
    rw [pieces_copyPath hp (hproper names (List.mem_of_getElem? hj))]
    exact hk
  · rintro k ⟨names, hmem, hk⟩
    refine ⟨names, hmem, ?_⟩
    unfold Position.IsOnWay
    rw [pieces_copyPath hp (hproper names hmem)]
    exact hk

/-- **Complete copies are complete in either spelling**, if their paths are not too long. -/
theorem IsComplete.respelled (hproper : ∀ names ∈ todo, ∀ n ∈ names, IsFileName n)
    (hshort : ∀ names ∈ todo, checkPath (copyPath dest' names) = .ok ())
    (hc : IsComplete tree dest todo h t) : IsComplete tree dest' todo h t where
  grown := hc.grown.respelled hp hproper
  copied names hmem := by
    obtain ⟨k, bytes, hbytes, ho⟩ := hc.copied names hmem
    obtain ⟨-, hname⟩ := names_iff.1 ho.names
    rw [← pieces_copyPath hp (hproper names hmem)] at hname
    exact ⟨k, bytes, hbytes, ho.grown.respelled hp hproper, names_iff.2 ⟨hshort names hmem, hname⟩, ho.entry⟩

/-- **An export leaves the same host however its destination is spelled**, if the paths of the copies are
not too long. -/
theorem alwaysLeaves_respelled (hfs : h.files.WellFormed) (hcwd : h.files.get? h.cwd.place = some .dir)
    (hg : Tree.graph h.files h.cwd tree = .ok g) (hplain : IsPlain h dest)
    (hapart : LiesApart tree dest g files h)
    (hrun : Action.run (run tree dest g files false) h = (.ok paths, t))
    (hshort : ∀ p ∈ paths, checkPath (dest'.join p) = .ok ()) :
    AlwaysLeaves tree dest' g files h t := by
  have hends := ends_run hcwd tree dest g files
  rw [hrun] at hends
  have hpaths := hends.pathsOf_eq
  obtain ⟨todo, hs, rfl⟩ := exists_isStart hfs hcwd hg hplain hapart hpaths
  have hs' : IsStart tree dest' todo h := by
    refine ⟨hfs, hcwd, hs.names, hs.nodup, hplain.respelled hp, fun names hmem => ?_⟩
    obtain ⟨pos, bytes, hpos, hfile, hout⟩ := hs.source names hmem
    exact ⟨pos, bytes, hpos, hfile, fun hwithin => hout ((isWithin_respelled hp).1 hwithin)⟩
  have hc := (hends.isComplete hs hpaths).respelled hp (fun names hmem => (hs.names names hmem).2)
    fun names hmem => hshort _ (List.mem_map_of_mem hmem)
  exact hc.alwaysLeaves hs' hpaths

end

/-! ## What can be discovered -/

/-- **Where a graph is built no path of a directory is too long.** -/
theorem checkPath_of_graph {fs : FileSystem} {cwd : Position} {dir : String} {rel : Location}
    (hg : Tree.graph fs cwd tree = .ok g) (hdir : dir ∈ Tree.sourceDirs) (hne : rel ≠ [])
    (hs : Tree.StandsBelow fs cwd tree dir rel .dir) :
    checkPath (tree.join (.ofNames (dir :: rel))) = .ok () := by
  unfold Tree.graph at hg
  obtain ⟨discovered, hdiscovered, -⟩ := exists_of_bind_eq_ok hg
  obtain ⟨found, hfound⟩ := Tree.exists_discoverIn_of_discover hdiscovered dir hdir
  obtain ⟨pos, hpos⟩ := Tree.canList_of_discoverIn hfound hne hs
  exact (locate_eq_ok_iff.1 hpos).1

/-! ## A copy that cannot be discovered -/

/-- The path goes down through a directory without copies, and up again to `/d`. -/
def winding : Path := ⟨"/d/src/directory/../.."⟩

/-- The export of `A.sol` and what it imports to there. -/
def windingRun : Except Failure (List Path) × Host :=
  Action.run (run ⟨"/t"⟩ winding sampleGraph (sampleGraph.closure [0]) false) sampleHost

/-- **The copies are made**, beside the directory that the path goes through. -/
theorem exists_windingRun :
    ∃ h', windingRun = (.ok [⟨"src/A.sol"⟩, ⟨"src/B.sol"⟩], h') ∧
      h'.files.Leads h'.cwd winding.pieces (.ofPlace ["d"]) ∧
      h'.files.Leads h'.cwd (winding.pieces ++ [.name "src"]) (.ofPlace ["d", "src"]) ∧
      h'.files.standing (.ofPlace ["d", "src"]) = some .dir ∧
      h'.files.get? ["d", "src", "directory"] = some .dir := by
  obtain ⟨hok, hend, hsrc, hstands, hdir⟩ :
      windingRun.1.toOption = some [⟨"src/A.sol"⟩, ⟨"src/B.sol"⟩] ∧
      windingRun.2.files.walk .find maxLinks windingRun.2.cwd winding.pieces =
        .ok (.found (.ofPlace ["d"])) ∧
      windingRun.2.files.walk .find maxLinks windingRun.2.cwd (winding.pieces ++ [.name "src"]) =
        .ok (.found (.ofPlace ["d", "src"])) ∧
      windingRun.2.files.standing (.ofPlace ["d", "src"]) = some .dir ∧
      windingRun.2.files.get? ["d", "src", "directory"] = some .dir := by decide +kernel
  rcases hrun : windingRun with ⟨e | paths, h'⟩
  · rw [hrun] at hok
    cases hok
  · rw [hrun] at hok hend hsrc hstands hdir
    obtain rfl := Option.some.inj hok
    exact ⟨h', rfl, walk_find_eq_ok_iff.1 hend, walk_find_eq_ok_iff.1 hsrc, hstands, hdir⟩

/-- No file of the tree lies where the path leads, however it is spelled. -/
theorem liesApart_winding (hp : dest.pieces = winding.pieces) :
    LiesApart ⟨"/t"⟩ dest sampleGraph (sampleGraph.closure [0]) sampleHost := by
  have hplace : sampleHost.cwd.along? winding.pieces = some (.ofPlace ["d"]) := by decide +kernel
  refine liesApart_sampleHost ?_
  rw [hp, hplace]

/-- The same path with so many slashes at its end that there is room for the copies, but not for the
name of the directory. -/
def longWinding : Path := winding.withSlashes 4064

theorem pieces_longWinding : longWinding.pieces = winding.pieces :=
  pieces_withSlashes (by decide)

theorem checkPath_longWinding {p : Path} (hp : p.isAbsolute = false) (hnul : 0 ∉ p.os.bytes) :
    checkPath (longWinding.join p) = .ok () ↔ p.os.bytes.length ≤ 9 := by
  have hsize : winding.os.bytes.length = 22 := by decide +kernel
  have hwinding : 0 ∉ winding.os.bytes := by decide +kernel
  unfold longWinding
  rw [checkPath_join_withSlashes hp, hsize, maxPath]
  simp only [hwinding, hnul, not_false_eq_true, true_and]
  omega

/-- **A complete copy of a closure need not have a graph.** Nothing stood before where the destination's
path leads, and no file of the tree lies there. -/
theorem leaves_undiscoverable_copy :
    Tree.graph sampleHost.files sampleHost.cwd ⟨"/t"⟩ = .ok sampleGraph ∧
      (∀ pos, ¬ sampleHost.files.Leads sampleHost.cwd longWinding.pieces pos) ∧
      LiesApart ⟨"/t"⟩ longWinding sampleGraph (sampleGraph.closure [0]) sampleHost ∧
      ∃ h', Action.run (run ⟨"/t"⟩ longWinding sampleGraph (sampleGraph.closure [0]) false) sampleHost =
          (.ok [⟨"src/A.sol"⟩, ⟨"src/B.sol"⟩], h') ∧
        (∀ pos, h'.files.Leads h'.cwd longWinding.pieces pos → sampleHost.files.get? pos.place = none) ∧
        ∀ g', Tree.graph h'.files h'.cwd longWinding ≠ .ok g' := by
  obtain ⟨h', hrun, hend, hsrc, hstands, hdir⟩ := exists_windingRun
  -- There is room for the copies, so the long spelling leaves the same host.
  have hshort : ∀ p ∈ [Path.mk "src/A.sol", ⟨"src/B.sol"⟩], checkPath (longWinding.join p) = .ok () := by
    intro p hp
    rw [List.mem_cons, List.mem_singleton] at hp
    rcases hp with rfl | rfl
    · exact (checkPath_longWinding (by decide) (by decide)).2 (by decide)
    · exact (checkPath_longWinding (by decide) (by decide)).2 (by decide)
  obtain ⟨paths, hlong, -⟩ := alwaysLeaves_respelled pieces_longWinding
    (wellFormed_sampleFiles _ _ _ : sampleHost.files.WellFormed) rfl graph_sampleHost
    (isPlain_of_hasNoLinks (hasNoLinks_sampleFiles _ _ _) winding) (liesApart_winding rfl) hrun hshort
  have hpaths := pathsOf_of_ends (ends_of_run rfl hlong)
  rw [pathsOf_sampleGraph] at hpaths
  obtain rfl := Except.ok.inj hpaths
  refine ⟨graph_sampleHost, fun pos hl => ?_, liesApart_winding pieces_longWinding, h', hlong,
    fun pos hl => ?_, fun g' hg' => ?_⟩
  · have hmissing : sampleHost.files.walk .find maxLinks sampleHost.cwd winding.pieces =
        .error .notFound := by decide +kernel
    rw [pieces_longWinding] at hl
    rw [walk_find_eq_ok_iff.2 hl] at hmissing
    cases hmissing
  · rw [pieces_longWinding] at hl
    rw [hl.unique hend]
    decide +kernel
  · have hlocate : h'.files.locate h'.cwd (longWinding.join ⟨"src"⟩) = .ok (.ofPlace ["d", "src"]) := by
      refine locate_eq_ok_iff.2 ⟨(checkPath_longWinding (by decide) (by decide)).2 (by decide), ?_⟩
      rw [← ofNames_singleton, steps_join_ofNames (by decide) (List.cons_ne_nil _ _), pieces_longWinding]
      exact hsrc
    have hcheck := checkPath_of_graph hg' (by decide) (List.cons_ne_nil _ _) ⟨_, hlocate, hstands, hdir⟩
    rw [checkPath_longWinding (by decide +kernel) (by decide +kernel)] at hcheck
    -- The name of the directory is longer than that.
    revert hcheck
    decide +kernel

end Export

end SolVendor
