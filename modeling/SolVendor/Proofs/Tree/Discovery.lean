import SolVendor.Proofs.FileSystem.Visiting
import SolVendor.Proofs.Graph.Query
import SolVendor.Proofs.Path.Descent
import SolVendor.Tree.Graph
/-!
# Tree — what discovery finds

The sources below one directory are told by the names that lead to them,
which stand in the order of the file system (`IsListing`). A listing is
determined by its members (`IsListing.eq_of_mem_iff`), so to know what
discovery finds it is enough to know which places hold sources. Discovery
gives the files of the listings, one directory after the other
(`exists_listings_of_discover`), and it fails only where a directory cannot
be listed (`discover_of_listings`).
-/

namespace SolVendor

open SolVendor.Path

namespace Tree

open FileSystem

variable {fs fs' : FileSystem} {cwd cwd' : Position} {tree tree' : Path} {dir : String}
  {rel : Location} {rels rels' : List Location} {files : List DiscoveredFile}

/-- The file that names lead to, below the directory called `dir`. -/
def fileAt (dir : String) (rel : Location) : DiscoveredFile :=
  ⟨(rel.getLast?.getD "").display, .ofNames (dir :: rel)⟩

/-- The names lead to a source, below the directory called `dir`. -/
structure IsSource (fs : FileSystem) (cwd : Position) (tree : Path) (dir : String) (rel : Location) :
    Prop where
  ne_nil : rel ≠ []
  name : isSourceName (rel.getLast?.getD "") = true
  file : fs.isFile cwd (tree.join (.ofNames (dir :: rel))) = true

theorem sourceAt_eq_some_iff {file : DiscoveredFile} :
    sourceAt fs cwd tree dir rel = some file ↔
      IsSource fs cwd tree dir rel ∧ file = fileAt dir rel := by
  unfold sourceAt fileAt
  cases hlast : rel.getLast? with
  | none =>
    have hnil : rel = [] := List.getLast?_eq_none_iff.1 hlast
    simp only [reduceCtorEq, false_iff, not_and]
    exact fun h => absurd hnil h.ne_nil
  | some name =>
    have hne : rel ≠ [] := by
      rintro rfl
      cases hlast
    simp only [Option.getD_some]
    constructor
    · intro h
      split at h
      · rename_i hsource
        rw [Bool.and_eq_true] at hsource
        refine ⟨⟨hne, ?_, hsource.2⟩, (Option.some.inj h).symm⟩
        rw [hlast]
        exact hsource.1
      · cases h
    · rintro ⟨hs, rfl⟩
      have hname := hs.name
      rw [hlast, Option.getD_some] at hname
      rw [if_pos (Bool.and_eq_true_iff.2 ⟨hname, hs.file⟩)]

/-- What stands below the directory called `dir`, if there is such a directory. -/
def StandsBelow (fs : FileSystem) (cwd : Position) (tree : Path) (dir : String) (rel : Location)
    (e : Entry) : Prop :=
  ∃ start, fs.locate cwd (tree.join ⟨dir⟩) = .ok start ∧ fs.standing start = some .dir ∧
    fs.get? (start.place ++ rel) = some e

/-- The sources among some places, picked out with their names. -/
theorem filterMap_sourceAt (places : List (Location × Entry)) :
    (places.filterMap fun (rel, _) => sourceAt fs cwd tree dir rel) =
      ((places.filter fun place => (sourceAt fs cwd tree dir place.1).isSome).map Prod.fst).map
        (fileAt dir) := by
  induction places with
  | nil => rfl
  | cons place places ih =>
    obtain ⟨rel, e⟩ := place
    rw [List.filterMap_cons, List.filter_cons]
    cases hs : sourceAt fs cwd tree dir rel with
    | none =>
      simp only [hs, Option.isSome_none, Bool.false_eq_true, if_false]
      exact ih
    | some file =>
      obtain ⟨-, rfl⟩ := sourceAt_eq_some_iff.1 hs
      simp only [hs, Option.isSome_some, if_true, List.map_cons]
      exact congrArg (fileAt dir rel :: ·) ih

/-! ## Listings -/

/-- The ways down to the sources below the directory called `dir`, in order. -/
structure IsListing (fs : FileSystem) (cwd : Position) (tree : Path) (dir : String)
    (rels : List Location) : Prop where
  ordered : rels.Pairwise fun a b => compare a b = .lt
  mem_iff : ∀ {rel}, rel ∈ rels ↔
    (∃ e, StandsBelow fs cwd tree dir rel e) ∧ IsSource fs cwd tree dir rel

/-- **A listing is determined by its members.** -/
theorem IsListing.eq_of_mem_iff (h : IsListing fs cwd tree dir rels)
    (h' : IsListing fs' cwd' tree' dir rels') (hmem : ∀ rel, rel ∈ rels ↔ rel ∈ rels') :
    rels = rels' :=
  eq_of_ordered_of_mem_iff (f := id) h.ordered h'.ordered hmem

/-- **What is found below one directory is a listing.** -/
theorem exists_listing_of_discoverIn (h : discoverIn fs cwd tree dir = .ok files) :
    ∃ rels, IsListing fs cwd tree dir rels ∧ files = rels.map (fileAt dir) := by
  -- Without such a directory the listing is empty.
  have hnone : (∀ rel e, ¬ StandsBelow fs cwd tree dir rel e) → files = [] →
      ∃ rels, IsListing fs cwd tree dir rels ∧ files = rels.map (fileAt dir) := by
    rintro hout rfl
    refine ⟨[], ⟨.nil, fun {rel} => ?_⟩, rfl⟩
    simp only [List.not_mem_nil, false_iff]
    rintro ⟨⟨e, hs⟩, -⟩
    exact hout rel e hs
  unfold discoverIn at h
  split at h
  · rename_i e hlocate
    refine hnone ?_ (Except.ok.inj h).symm
    rintro rel e ⟨start, hl, -⟩
    rw [hlocate] at hl
    cases hl
  · rename_i start hlocate
    split at h
    · rename_i hdir
      refine hnone ?_ (Except.ok.inj h).symm
      rintro rel e ⟨start', hl, hd, -⟩
      rw [hlocate] at hl
      cases hl
      exact hdir hd
    · rename_i hdir
      simp only at h
      split at h
      · cases h
      · obtain rfl := Except.ok.inj h
        refine ⟨_, ⟨?_, fun {rel} => ?_⟩, filterMap_sourceAt _⟩
        · exact List.pairwise_map.2 ((pairwise_below fs start.place).filter _)
        · rw [List.mem_map]
          constructor
          · rintro ⟨⟨rel, e⟩, hmem, rfl⟩
            obtain ⟨hbelow, hsome⟩ := List.mem_filter.1 hmem
            obtain ⟨file, hfile⟩ := Option.isSome_iff_exists.1 hsome
            exact ⟨⟨e, start, hlocate, by simpa using hdir, (mem_below.1 hbelow).2⟩,
              (sourceAt_eq_some_iff.1 hfile).1⟩
          · rintro ⟨⟨e, start', hl, -, he⟩, hs⟩
            rw [hlocate] at hl
            cases hl
            refine ⟨(rel, e), List.mem_filter.2 ⟨mem_below.2 ⟨hs.ne_nil, he⟩, ?_⟩, rfl⟩
            rw [sourceAt_eq_some_iff.2 ⟨hs, rfl⟩]
            rfl

/-- All directories below the one called `dir` can be listed. -/
def CanList (fs : FileSystem) (cwd : Position) (tree : Path) (dir : String) : Prop :=
  ∀ {rel}, rel ≠ [] → StandsBelow fs cwd tree dir rel .dir →
    ∃ pos, fs.locate cwd (tree.join (.ofNames (dir :: rel))) = .ok pos

/-- Discovery succeeds where all directories can be listed. -/
theorem exists_discoverIn_of_canList (h : CanList fs cwd tree dir) :
    ∃ files, discoverIn fs cwd tree dir = .ok files := by
  unfold discoverIn
  cases hlocate : fs.locate cwd (tree.join ⟨dir⟩) with
  | error e => exact ⟨_, rfl⟩
  | ok start =>
    simp only
    split
    · exact ⟨_, rfl⟩
    · rename_i hdir
      cases hfail : (fs.below start.place).findSome? (failureAt fs cwd tree dir) with
      | none => exact ⟨_, rfl⟩
      | some failure =>
        -- It would be the failure of a directory that cannot be listed.
        obtain ⟨⟨rel, e⟩, hmem, hf⟩ := List.exists_of_findSome?_eq_some hfail
        obtain ⟨hne, he⟩ := mem_below.1 hmem
        unfold failureAt at hf
        split at hf
        · rename_i heq
          cases heq
          obtain ⟨pos, hpos⟩ := h hne ⟨start, hlocate, by simpa using hdir, he⟩
          simp only [hpos, reduceCtorEq] at hf
        · cases hf

/-- **It fails where one of them cannot.** -/
theorem canList_of_discoverIn (h : discoverIn fs cwd tree dir = .ok files) : CanList fs cwd tree dir := by
  rintro rel hne ⟨start, hl, hd, he⟩
  unfold discoverIn at h
  rw [hl] at h
  simp only [hd, ne_eq, not_true_eq_false, if_false] at h
  split at h
  · cases h
  · rename_i hnone
    have hlisted := List.findSome?_eq_none_iff.1 hnone (rel, .dir) (mem_below.2 ⟨hne, he⟩)
    unfold failureAt at hlisted
    simp only at hlisted
    split at hlisted
    · rename_i pos hlocate
      exact ⟨pos, hlocate⟩
    · cases hlisted

/-- **Below one directory the files of the listing are found**, if all can be listed. -/
theorem discoverIn_of_listing (h : IsListing fs cwd tree dir rels) (hc : CanList fs cwd tree dir) :
    discoverIn fs cwd tree dir = .ok (rels.map (fileAt dir)) := by
  obtain ⟨files, hfiles⟩ := exists_discoverIn_of_canList hc
  obtain ⟨rels', h', rfl⟩ := exists_listing_of_discoverIn hfiles
  have heq : rels' = rels := h'.eq_of_mem_iff h fun rel => by rw [h'.mem_iff, h.mem_iff]
  rw [hfiles, heq]

/-! ## Discovery -/

/-- The files of the listings, one directory after the other. -/
def filesOf (rels : String → List Location) : List DiscoveredFile :=
  sourceDirs.flatMap fun dir => (rels dir).map (fileAt dir)

/-- Discovery succeeds when it does so below each directory. -/
theorem discover_of_forall {found : String → List DiscoveredFile}
    (h : ∀ dir ∈ sourceDirs, discoverIn fs cwd tree dir = .ok (found dir)) :
    discover fs cwd tree = .ok (sourceDirs.flatMap found) := by
  unfold discover
  rw [mapM_eq_ok h]
  rfl

/-- It fails when it fails below one. -/
theorem exists_discoverIn_of_discover (h : discover fs cwd tree = .ok files) :
    ∀ dir ∈ sourceDirs, ∃ found, discoverIn fs cwd tree dir = .ok found := by
  unfold discover at h
  cases hm : sourceDirs.mapM fun dir => discoverIn fs cwd tree dir with
  | error e =>
    rw [hm] at h
    cases h
  | ok found => exact exists_of_mapM_eq_ok hm

/-- **The files that are discovered are those of the listings**, one directory after the other. -/
theorem exists_listings_of_discover (h : discover fs cwd tree = .ok files) :
    ∃ rels : String → List Location,
      (∀ dir ∈ sourceDirs, IsListing fs cwd tree dir (rels dir)) ∧
        files = filesOf rels := by
  have hlisting : ∀ dir ∈ sourceDirs, ∃ rels, IsListing fs cwd tree dir rels ∧
      discoverIn fs cwd tree dir = .ok (rels.map (fileAt dir)) := by
    intro dir hdir
    obtain ⟨found, hfound⟩ := exists_discoverIn_of_discover h dir hdir
    obtain ⟨rels, hrels, rfl⟩ := exists_listing_of_discoverIn hfound
    exact ⟨rels, hrels, hfound⟩
  choose! rels hrels hfound using hlisting
  rw [discover_of_forall hfound] at h
  exact ⟨rels, hrels, (Except.ok.inj h).symm⟩

/-- **Discovery finds the files of the listings**, if all directories can be listed. -/
theorem discover_of_listings {rels : String → List Location}
    (h : ∀ dir ∈ sourceDirs, IsListing fs cwd tree dir (rels dir))
    (hc : ∀ dir ∈ sourceDirs, CanList fs cwd tree dir) :
    discover fs cwd tree = .ok (filesOf rels) :=
  discover_of_forall fun dir hdir => discoverIn_of_listing (h dir hdir) (hc dir hdir)

/-! ## The files of well-formed file systems -/

theorem isFileName_of_mem_sourceDirs (h : dir ∈ sourceDirs) : IsFileName (dir : OsString) := by
  have hall : ∀ n ∈ sourceDirs, IsFileName (n : OsString) := by decide
  exact hall dir h

/-- **The names of a source are such as files can have.** -/
theorem IsListing.isFileName (h : IsListing fs cwd tree dir rels) (hfs : fs.WellFormed)
    (hdir : dir ∈ sourceDirs) (hrel : rel ∈ rels) : ∀ n ∈ (dir : OsString) :: rel, IsFileName n := by
  obtain ⟨⟨e, start, -, -, he⟩, -⟩ := h.mem_iff.1 hrel
  intro n hn
  rcases List.mem_cons.1 hn with rfl | hn
  · exact isFileName_of_mem_sourceDirs hdir
  · exact hfs.names he n (List.mem_append_right _ hn)

/-- The files at some paths are those at the same names. -/
theorem filter_files_of_listings {rels : String → List Location} {todo : List Location}
    (hfs : fs.WellFormed) (h : ∀ dir ∈ sourceDirs, IsListing fs cwd tree dir (rels dir))
    (htodo : ∀ names ∈ todo, ∀ n ∈ names, IsFileName n) :
    (filesOf rels).filter (fun file => file.path ∈ todo.map .ofNames) =
      filesOf fun dir => (rels dir).filter fun rel => (dir : OsString) :: rel ∈ todo := by
  unfold filesOf
  rw [List.filter_flatMap]
  refine List.flatMap_congr fun dir hdir => ?_
  rw [List.filter_map]
  congr 1
  refine List.filter_congr fun rel hrel => decide_eq_decide.2 ⟨fun hin => ?_, fun hin => ?_⟩
  · obtain ⟨names, hmem, heq⟩ := List.mem_map.1 hin
    rw [← eq_of_ofNames_eq (htodo names hmem) ((h dir hdir).isFileName hfs hdir hrel) heq]
    exact hmem
  · exact List.mem_map_of_mem (f := Path.ofNames) hin

/-- **The files that are discovered are distinct**, at paths in normal form. -/
theorem areDistinct_of_listings {rels : String → List Location} (hfs : fs.WellFormed)
    (h : ∀ dir ∈ sourceDirs, IsListing fs cwd tree dir (rels dir)) :
    ImportGraph.AreDistinct (filesOf rels) := by
  unfold filesOf
  constructor
  · intro file hfile
    obtain ⟨dir, hdir, hfile⟩ := List.mem_flatMap.1 hfile
    obtain ⟨rel, hrel, rfl⟩ := List.mem_map.1 hfile
    exact normalize_ofNames ((h dir hdir).isFileName hfs hdir hrel) (List.cons_ne_nil _ _)
  · rw [List.pairwise_flatMap]
    constructor
    · intro dir hdir
      rw [List.pairwise_map]
      refine (h dir hdir).ordered.imp_of_mem fun {a b} ha hb hab heq => ?_
      have hnames := eq_of_ofNames_eq ((h dir hdir).isFileName hfs hdir ha)
        ((h dir hdir).isFileName hfs hdir hb) heq
      rw [(List.cons.inj hnames).2, Std.LawfulEqOrd.compare_eq_iff_eq.2 rfl] at hab
      cases hab
    · have hdirs : sourceDirs.Pairwise (· ≠ ·) := by decide
      refine hdirs.imp_of_mem fun {a b} ha hb hne file hfile file' hfile' heq => ?_
      obtain ⟨rel, hrel, rfl⟩ := List.mem_map.1 hfile
      obtain ⟨rel', hrel', rfl⟩ := List.mem_map.1 hfile'
      have hnames := eq_of_ofNames_eq ((h a ha).isFileName hfs ha hrel)
        ((h b hb).isFileName hfs hb hrel') heq
      exact hne (OsString.ofString_inj.1 (List.cons.inj hnames).1)

end Tree

end SolVendor
