import SolVendor.Proofs.Graph.Closure
import SolVendor.Proofs.Graph.Induced
import SolVendor.Proofs.Install.Destination
import SolVendor.Proofs.Install.InTurn
/-!
# Install — the exported copy is self-contained

A closure is exported to a new destination. Discovery then finds at the
destination the files of the closure, in the order of the tree
(`Selects.discover`), and they hold the same bytes. As the closure is
closed under imports, the graph of the copy is the part of the graph of the
tree that the closure makes up (`record?_graph_of_export`).
-/

namespace SolVendor

open FileSystem SolVendor.Path

namespace Tree

variable {fs : FileSystem} {cwd : Position} {tree file : Path} {bytes : List UInt8}

/-- A file of a tree is read where its path leads. -/
theorem opener_reads_iff :
    (opener fs cwd tree).Reads file bytes ↔ fs.entryAt cwd (tree.join file) = .ok (.file bytes) := by
  rw [entryAt_eq_ok_iff]
  unfold Opener.Reads opener
  cases hl : fs.locate cwd (tree.join file) with
  | error e => simp [hl]
  | ok pos =>
    unfold FileSystem.read
    rcases hs : fs.standing pos with _ | e
    · simp [hl, hs]
    · cases e <;> simp [hl, hs]

end Tree

namespace Export

variable {h h' : Host} {tree dest : Path} {place : Location} {names rel : List OsString}
  {all : List Location} {dir : String} {rels : List Location}

/-! ## The destination as a tree -/

/-- A copy stands at its place, and its path leads there. -/
theorem Copied.locate_copy (hc : Copied tree dest place h all h') (hp : IsNewPlace dest place h h')
    (hmem : names ∈ all) (hnames : ∀ n ∈ names, IsFileName n) (hne : names ≠ []) :
    h'.files.locate h'.cwd (dest.join (.ofNames names)) = .ok (.ofPlace (place ++ names)) ∧
      ∃ bytes, h'.files.get? (place ++ names) = some (.file bytes) := by
  obtain ⟨bytes, -, hentry⟩ := hc.copies names hmem
  obtain ⟨pos, hpos, hs⟩ := entryAt_eq_ok_iff.1 hentry
  have hl := (locate_eq_ok_iff.1 hpos).2
  rw [steps_join_ofNames hnames hne] at hl
  obtain rfl := hl.eq_of_names (hc.hasNoLinks.isClear _) fun mid hmid => hmid.unique hp.leads
  exact ⟨hpos, bytes, hs⟩

/-- **The directories at the destination can be listed.** -/
theorem Copied.locate_dir (hc : Copied tree dest place h all h') (hp : IsNewPlace dest place h h')
    (hd : h'.files.get? (place ++ rel) = some .dir) (hne : rel ≠ []) :
    h'.files.locate h'.cwd (dest.join (.ofNames rel)) = .ok (.ofPlace (place ++ rel)) := by
  have hrel := hc.isOpen.isFileName hd
  rcases hc.below hd with ⟨-, hcheck⟩ | ⟨-, bytes, hfile⟩
  · refine locate_eq_ok_iff.2 ⟨hcheck hne, ?_⟩
    rw [steps_join_ofNames hrel hne]
    exact hp.leads.append (hc.isOpen.walks hd (by simp))
  · cases hfile

/-- What stands below a directory at the destination stands there in the file system. -/
theorem Copied.get?_of_standsBelow (hc : Copied tree dest place h all h')
    (hp : IsNewPlace dest place h h') (hdir : IsFileName (dir : OsString)) {e : Entry}
    (hs : Tree.StandsBelow h'.files h'.cwd dest dir rel e) :
    h'.files.get? (place ++ (dir : OsString) :: rel) = some e := by
  obtain ⟨start, hl, -, he⟩ := hs
  rw [← ofNames_singleton, locate_eq_ok_iff,
    steps_join_ofNames (by simpa using hdir) (List.cons_ne_nil _ _)] at hl
  obtain rfl := hl.2.eq_of_names (hc.hasNoLinks.isClear _) fun mid hmid => hmid.unique hp.leads
  have he : h'.files.get? (place ++ [(dir : OsString)] ++ rel) = some e := he
  rwa [List.append_assoc] at he

/-- **At the destination the sources are the copies.** -/
theorem Copied.isListing (hc : Copied tree dest place h all h') (hp : IsNewPlace dest place h h')
    (hlist : Tree.IsListing h.files h.cwd tree dir rels) (hdir : IsFileName (dir : OsString))
    (hproper : ∀ names ∈ all, ∀ n ∈ names, IsFileName n)
    (hall : ∀ {rel}, (dir : OsString) :: rel ∈ all → rel ∈ rels) :
    Tree.IsListing h'.files h'.cwd dest dir (rels.filter fun rel => (dir : OsString) :: rel ∈ all) where
  ordered := hlist.ordered.filter _
  mem_iff {rel} := by
    rw [List.mem_filter, decide_eq_true_eq]
    constructor
    · rintro ⟨hrel, hmem⟩
      obtain ⟨-, hsource⟩ := hlist.mem_iff.1 hrel
      obtain ⟨hcopy, b, hfile⟩ :=
        hc.locate_copy hp hmem (hproper _ hmem) (List.cons_ne_nil _ _)
      have hfile' : h'.files.get? (place ++ ([(dir : OsString)] ++ rel)) = some (.file b) := hfile
      have hd := hc.isOpen.get?_above hsource.ne_nil hfile'
      have hstart := hc.locate_dir hp hd (List.cons_ne_nil _ _)
      rw [ofNames_singleton] at hstart
      refine ⟨⟨.file b, _, hstart, hd, ?_⟩, hsource.ne_nil, hsource.name, ?_⟩
      · show h'.files.get? (place ++ [(dir : OsString)] ++ rel) = _
        rw [List.append_assoc]
        exact hfile
      · exact isFile_iff.2 ⟨_, b, hcopy, hfile⟩
    · rintro ⟨⟨e, hs⟩, hsource⟩
      have he := hc.get?_of_standsBelow hp hdir hs
      rcases hc.below he with ⟨rfl, -⟩ | ⟨hmem, -⟩
      · -- A directory is no source.
        have hl := hc.locate_dir hp he (List.cons_ne_nil _ _)
        obtain ⟨pos, bytes, hpos, hfile⟩ := isFile_iff.1 hsource.file
        rw [hl] at hpos
        obtain rfl := Except.ok.inj hpos
        have hfile : h'.files.get? (place ++ (dir : OsString) :: rel) = some (.file bytes) := hfile
        rw [he] at hfile
        cases hfile
      · exact ⟨hall hmem, hmem⟩

theorem Copied.canList (hc : Copied tree dest place h all h') (hp : IsNewPlace dest place h h')
    (hdir : IsFileName (dir : OsString)) : Tree.CanList h'.files h'.cwd dest dir := by
  intro rel _ hs
  exact ⟨_, hc.locate_dir hp (hc.get?_of_standsBelow hp hdir hs) (List.cons_ne_nil _ _)⟩

/-- If nothing is copied, nothing is below the destination. -/
theorem IsNew.not_standsBelow (hn : IsNew dest h h) (hdir : IsFileName (dir : OsString)) {e : Entry} :
    ¬ Tree.StandsBelow h.files h.cwd dest dir rel e := by
  rintro ⟨start, hl, -⟩
  rw [← ofNames_singleton, locate_eq_ok_iff,
    steps_join_ofNames (by simpa using hdir) (List.cons_ne_nil _ _)] at hl
  obtain ⟨mid, l, hmid, hw⟩ := hl.2.exists_of_append
  have hnone := hn.vacant hmid
  -- A name is taken from a directory that stands.
  have hs : h.files.get? mid.place = some .dir := by
    cases hw with
    | name hd hlost _ _ _ _ =>
      unfold standing at hd
      rwa [if_pos hlost] at hd
    | link hd hlost _ _ _ =>
      unfold standing at hd
      rwa [if_pos hlost] at hd
  rw [hnone] at hs
  cases hs

/-- **The copies are made, with the bytes of the tree**, and at the destination they are all the
sources that there are. -/
theorem sources_of_ends {g : ImportGraph} {ids : NodeSet} {todo : List Location} (hfs : h.files.WellFormed)
    (hnew : IsNew dest h h') (hnames : ∀ names ∈ todo, names ≠ [] ∧ ∀ n ∈ names, IsFileName n)
    (hnodup : todo.Nodup)
    (hread : ∀ names ∈ todo, ∃ bytes,
      h.files.entryAt h.cwd (tree.join (.ofNames names)) = .ok (.file bytes))
    (hends : Ends tree dest g ids h (.ok (todo.map .ofNames)) h') :
    (∀ names ∈ todo, ∃ bytes,
        h.files.entryAt h.cwd (tree.join (.ofNames names)) = .ok (.file bytes) ∧
          h'.files.entryAt h'.cwd (dest.join (.ofNames names)) = .ok (.file bytes)) ∧
      ∀ {dir : String} {rels}, IsFileName (dir : OsString) → Tree.IsListing h.files h.cwd tree dir rels →
        (∀ {rel}, (dir : OsString) :: rel ∈ todo → rel ∈ rels) →
        Tree.IsListing h'.files h'.cwd dest dir (rels.filter fun rel => (dir : OsString) :: rel ∈ todo) ∧
          Tree.CanList h'.files h'.cwd dest dir := by
  have hnames' : ∀ p ∈ todo.map Path.ofNames, EndsInName (dest.join p) :=
    List.forall_mem_map.2 fun names hmem => endsInName_join_ofNames (hnames names hmem).2 (hnames names hmem).1
  cases todo with
  | nil =>
    obtain rfl := eq_of_steps_nil (steps_of_ends hnames' (pathsOf_of_ends hends) hends)
    refine ⟨fun names hmem => absurd hmem List.not_mem_nil, fun {dir rels} hdir _ _ => ⟨?_, ?_⟩⟩
    · refine ⟨by simp, fun {rel} => ?_⟩
      simp only [List.not_mem_nil, decide_false, List.filter_false, false_iff]
      rintro ⟨⟨e, hs⟩, -⟩
      exact hnew.not_standsBelow hdir hs
    · exact fun {rel} _ hs => absurd hs (hnew.not_standsBelow hdir)
  | cons names todo =>
    obtain ⟨hne, hproper⟩ := hnames names List.mem_cons_self
    obtain ⟨k, hlanded⟩ := exists_hasLanded_of_ends (i := 0) hnames' hends rfl
    obtain ⟨place, hl⟩ := exists_leads_of_leadsToFile hproper hne hlanded.target
    have hp := hnew.isNewPlace hl
    have hc := copied_of_ends hfs hp hnames hnodup hread hends
    have hall : ∀ names' ∈ names :: todo, ∀ n ∈ names', IsFileName n :=
      fun names' hmem => (hnames names' hmem).2
    exact ⟨hc.copies, fun hdir hlist hrels =>
      ⟨hc.isListing hp hlist hdir hall hrels, hc.canList hp hdir⟩⟩

/-! ## The graph of the copy -/

variable {g : ImportGraph} {files : NodeSet} {paths : List Path}

/-- The paths that are exported are those of the nodes. -/
theorem map_path?_of_pathsOf (hpaths : pathsOf g files = .ok paths) :
    files.toList.map g.path? = paths.map some := by
  unfold pathsOf at hpaths
  have hnodes : ∀ id ∈ files.toList, ∃ node, g.node? id = some node := by
    intro id hid
    obtain ⟨p, hp⟩ := exists_of_mapM_eq_ok hpaths id hid
    split at hp
    · rename_i node hn
      exact ⟨node, hn⟩
    · cases hp
  choose! node hnode using hnodes
  rw [mapM_eq_ok (g := fun id => (node id).path) fun id hid => by rw [hnode id hid]] at hpaths
  obtain rfl := Except.ok.inj hpaths
  rw [List.map_map]
  refine List.map_congr_left fun id hid => ?_
  exact ImportGraph.path?_eq_some_iff.2 ⟨node id, hnode id hid, rfl⟩

/-- The paths of nodes of the graph are given. -/
theorem exists_pathsOf (hall : ∀ id ∈ files, ∃ p, g.path? id = some p) :
    ∃ paths, pathsOf g files = .ok paths := by
  choose! path hpath using hall
  unfold pathsOf
  refine ⟨_, mapM_eq_ok (g := path) fun id hid => ?_⟩
  obtain ⟨node, hnode, heq⟩ := ImportGraph.path?_eq_some_iff.1 (hpath id (Std.ExtTreeSet.mem_toList.1 hid))
  rw [hnode, ← heq]

theorem mem_of_pathsOf (hpaths : pathsOf g files = .ok paths) {p : Path} :
    p ∈ paths ↔ ∃ id ∈ files, g.path? id = some p := by
  have hsome : some p ∈ paths.map some ↔ p ∈ paths := by simp
  rw [← hsome, ← map_path?_of_pathsOf hpaths, List.mem_map]
  simp only [Std.ExtTreeSet.mem_toList]

/-- All nodes that are exported have paths. -/
theorem exists_path?_of_pathsOf (hpaths : pathsOf g files = .ok paths) {id : NodeId}
    (hid : id ∈ files) : ∃ p, g.path? id = some p := by
  have hin : g.path? id ∈ paths.map some :=
    map_path?_of_pathsOf hpaths ▸ List.mem_map_of_mem (Std.ExtTreeSet.mem_toList.2 hid)
  obtain ⟨p, -, hp⟩ := List.mem_map.1 hin
  exact ⟨p, hp.symm⟩

/-- Each path is exported once. -/
theorem nodup_of_pathsOf (hpaths : pathsOf g files = .ok paths)
    (hinj : ∀ {i j p}, g.path? i = some p → g.path? j = some p → i = j) : paths.Nodup := by
  refine List.Nodup.of_map some ?_
  rw [← map_path?_of_pathsOf hpaths]
  refine (ImportGraph.nodup_toList files).map_on fun i hi j _ hij => ?_
  obtain ⟨p, hp⟩ := exists_path?_of_pathsOf hpaths (Std.ExtTreeSet.mem_toList.1 hi)
  exact hinj hp (hij ▸ hp)

/-- What an export of some nodes starts from: the listings that the graph of the tree was built from,
and the names that lead to the files of the nodes. -/
structure Selects (tree : Path) (h : Host) (g : ImportGraph) (rels : String → List Location)
    (todo : List Location) : Prop where
  listings : ∀ dir ∈ Tree.sourceDirs, Tree.IsListing h.files h.cwd tree dir (rels dir)
  graph : g.IsGraphOf (Tree.filesOf rels) (Tree.opener h.files h.cwd tree)
  nodup : todo.Nodup
  found : ∀ names ∈ todo, ∃ dir ∈ Tree.sourceDirs, ∃ rel ∈ rels dir, names = (dir : OsString) :: rel
  reads : ∀ names ∈ todo, ∃ bytes,
    h.files.entryAt h.cwd (tree.join (.ofNames names)) = .ok (.file bytes)

/-- **The paths that are exported go down through names that discovery has found.** -/
theorem exists_selects (hfs : h.files.WellFormed) (hg : Tree.graph h.files h.cwd tree = .ok g)
    (hpaths : pathsOf g files = .ok paths) :
    ∃ rels todo, Selects tree h g rels todo ∧ todo.map .ofNames = paths := by
  unfold Tree.graph at hg
  obtain ⟨discovered, hdiscovered, hg⟩ := exists_of_bind_eq_ok hg
  obtain ⟨rels, hlist, rfl⟩ := Tree.exists_listings_of_discover hdiscovered
  have hdistinct := Tree.areDistinct_of_listings hfs hlist
  have hgraph := ImportGraph.isGraphOf_of_build hg
  have hnames : ∀ p ∈ paths, ∃ names, .ofNames names = p ∧
      (∃ dir ∈ Tree.sourceDirs, ∃ rel ∈ rels dir, names = (dir : OsString) :: rel) ∧
        ∃ bytes, h.files.entryAt h.cwd (tree.join (.ofNames names)) = .ok (.file bytes) := by
    intro p hp
    obtain ⟨id, -, hid⟩ := (mem_of_pathsOf hpaths).1 hp
    obtain ⟨file, hfile, hpath⟩ := hgraph.exists_path?_iff.1 ⟨id, hid⟩
    rw [hdistinct.distinctFiles_eq] at hfile
    obtain ⟨dir, hdir, hfile⟩ := List.mem_flatMap.1 hfile
    obtain ⟨rel, hrel, rfl⟩ := List.mem_map.1 hfile
    obtain ⟨node, hn, hnode⟩ := ImportGraph.path?_eq_some_iff.1 hid
    obtain ⟨bytes, hr, -⟩ := hgraph.deps hn
    rw [hnode, ← hpath] at hr
    exact ⟨dir :: rel, hpath, ⟨dir, hdir, rel, hrel, rfl⟩, bytes, Tree.opener_reads_iff.1 hr⟩
  -- The names are chosen path by path, and no path is exported twice.
  choose! namesAt hofNames hfound hreads using hnames
  have hmap : (paths.map namesAt).map .ofNames = paths := by
    rw [List.map_map]
    exact (List.map_congr_left hofNames).trans (List.map_id paths)
  have hnodup := nodup_of_pathsOf hpaths hgraph.path?_inj
  rw [← hmap] at hnodup
  exact ⟨rels, paths.map namesAt, ⟨hlist, hgraph, hnodup.of_map _, List.forall_mem_map.2 hfound,
    List.forall_mem_map.2 hreads⟩, hmap⟩

variable {rels : String → List Location} {todo : List Location}

theorem Selects.isFileName (hs : Selects tree h g rels todo) (hfs : h.files.WellFormed) :
    ∀ names ∈ todo, names ≠ [] ∧ ∀ n ∈ names, IsFileName n := by
  intro names hin
  obtain ⟨dir, hdir, rel, hrel, rfl⟩ := hs.found names hin
  exact ⟨List.cons_ne_nil _ _, (hs.listings dir hdir).isFileName hfs hdir hrel⟩

/-- **At a new destination discovery finds the files at the exported paths**, in the order of the tree,
and they hold the bytes of the tree. -/
theorem Selects.discover {ids : NodeSet} (hs : Selects tree h g rels todo) (hfs : h.files.WellFormed)
    (hnew : IsNew dest h h') (hends : Ends tree dest g ids h (.ok (todo.map .ofNames)) h') :
    Tree.discover h'.files h'.cwd dest =
        .ok ((Tree.filesOf rels).filter fun file => file.path ∈ todo.map .ofNames) ∧
      ∀ p ∈ todo.map .ofNames, ∃ bytes, (Tree.opener h.files h.cwd tree).Reads p bytes ∧
        (Tree.opener h'.files h'.cwd dest).Reads p bytes := by
  have hnames := hs.isFileName hfs
  have hrels : ∀ dir ∈ Tree.sourceDirs, ∀ {rel}, (dir : OsString) :: rel ∈ todo → rel ∈ rels dir := by
    intro dir _ rel hin
    obtain ⟨dir', -, rel', hrel', heq⟩ := hs.found _ hin
    obtain ⟨hdir, rfl⟩ := List.cons.inj heq
    obtain rfl := OsString.ofString_inj.1 hdir
    exact hrel'
  obtain ⟨hsame, hsources⟩ := sources_of_ends hfs hnew hnames hs.nodup hs.reads hends
  constructor
  · rw [Tree.filter_files_of_listings hfs hs.listings fun names hin => (hnames names hin).2]
    have hlistings := fun dir (hdir : dir ∈ Tree.sourceDirs) =>
      hsources (Tree.isFileName_of_mem_sourceDirs hdir) (hs.listings dir hdir) (hrels dir hdir)
    exact Tree.discover_of_listings (fun dir hdir => (hlistings dir hdir).1)
      fun dir hdir => (hlistings dir hdir).2
  · intro p hp
    obtain ⟨names, hin, rfl⟩ := List.mem_map.1 hp
    obtain ⟨bytes, htree, hdest⟩ := hsame names hin
    exact ⟨bytes, Tree.opener_reads_iff.2 htree, Tree.opener_reads_iff.2 hdest⟩

/-- The paths that are exported end in names. -/
theorem endsInName_of_pathsOf (hfs : h.files.WellFormed) (hg : Tree.graph h.files h.cwd tree = .ok g)
    (hpaths : pathsOf g files = .ok paths) : ∀ p ∈ paths, EndsInName (dest.join p) := by
  obtain ⟨rels, todo, hs, rfl⟩ := exists_selects hfs hg hpaths
  refine List.forall_mem_map.2 fun names hmem => ?_
  obtain ⟨hne, hproper⟩ := hs.isFileName hfs names hmem
  exact endsInName_join_ofNames hproper hne

/-- **A destination without two dots that has led nowhere is new** for any export from a tree. -/
theorem isNew_of_ends (hfs : h.files.WellFormed) (hcwd : h.files.get? h.cwd.place = some .dir)
    (hg : Tree.graph h.files h.cwd tree = .ok g) (hends : Ends tree dest g files h (.ok paths) h')
    (hup : .up ∉ dest.pieces) (hnot : ∀ pos, ¬ h.files.Leads h.cwd dest.pieces pos) :
    IsNew dest h h' := by
  have hpaths := pathsOf_of_ends hends
  have hsteps := steps_of_ends (endsInName_of_pathsOf hfs hg hpaths) hpaths hends
  obtain ⟨rels, todo, hs, rfl⟩ := exists_selects hfs hg hpaths
  exact isNew_of_not_leads hfs hcwd hup hnot (hs.isFileName hfs) hsteps

/-- **The graph of the copy is the part of the graph that the closure makes up.** After the closure of
some seeds has been exported to a new destination, in whatever order its copies were made, discovering and
building there succeeds. The nodes are those of the closure, in the same order, with the same names and
paths; and each of them imports the same paths, in the same order and as often. -/
theorem record?_graph_of_export {seeds : List NodeId} (hfs : h.files.WellFormed)
    (hg : Tree.graph h.files h.cwd tree = .ok g)
    (hends : Ends tree dest g (g.closure seeds) h (.ok paths) h') (hnew : IsNew dest h h') :
    ∃ g', Tree.graph h'.files h'.cwd dest = .ok g' ∧
      (List.range g'.size).map g'.record? = (g.closure seeds).toList.map g.record? := by
  have hpaths := pathsOf_of_ends hends
  obtain ⟨rels, todo, hs, rfl⟩ := exists_selects hfs hg hpaths
  -- Discovery finds the exported files, and all of them can be read.
  obtain ⟨hdiscover, hreads⟩ := hs.discover hfs hnew hends
  have hdistinct := Tree.areDistinct_of_listings hfs hs.listings
  have hdistinct' := hdistinct.filter fun file => file.path ∈ todo.map .ofNames
  have hreads' : ∀ file ∈ (Tree.filesOf rels).filter fun file => file.path ∈ todo.map .ofNames,
      ∃ bytes, (Tree.opener h'.files h'.cwd dest).Reads file.path.normalize bytes := by
    intro file hfile
    rw [hdistinct'.normal file hfile]
    obtain ⟨bytes, -, hr⟩ := hreads file.path (by simpa using (List.mem_filter.1 hfile).2)
    exact ⟨bytes, hr⟩
  obtain ⟨g', hg'⟩ := ImportGraph.exists_build_of_reads hreads'
  refine ⟨g', ?_, ?_⟩
  · unfold Tree.graph
    rw [hdiscover]
    exact hg'
  · -- The closure is closed, so the exported paths are all that its nodes import.
    refine hs.graph.record?_induced (P := fun p => p ∈ todo.map .ofNames)
      (ImportGraph.isGraphOf_of_build hg') (fun i hi => ?_)
      (fun i hi j hj => ImportGraph.mem_closure_of_deps hi hj) (fun {i p} hip => ?_)
      (fun p hp => ?_) ?_ (fun p hp => ?_)
    · obtain ⟨p, hp⟩ := exists_path?_of_pathsOf hpaths hi
      obtain ⟨node, hn, -⟩ := ImportGraph.path?_eq_some_iff.1 hp
      exact ImportGraph.lt_size_of_node? hn
    · rw [mem_of_pathsOf hpaths]
      constructor
      · rintro ⟨j, hj, hjp⟩
        rw [hs.graph.path?_inj hip hjp]
        exact hj
      · exact fun hi => ⟨i, hi, hip⟩
    · obtain ⟨i, -, hi⟩ := (mem_of_pathsOf hpaths).1 hp
      exact ⟨i, hi⟩
    · rw [hdistinct'.distinctFiles_eq, hdistinct.distinctFiles_eq]
    · obtain ⟨bytes, hr, hr'⟩ := hreads p hp
      rw [ImportGraph.requested_of_reads hr, ImportGraph.requested_of_reads hr']

/-! ## An export of two files -/

/-- A tree at `/t` with three files in `src`. -/
def sampleFiles (a b c : List UInt8) : FileSystem :=
  ((((empty.put ["t"] .dir).put ["t", "src"] .dir).put ["t", "src", "A.sol"] (.file a)).put
    ["t", "src", "B.sol"] (.file b)).put ["t", "src", "C.sol"] (.file c)

/-- `A.sol` and `B.sol` import each other, `B.sol` also asks for a file that is not there, and nothing
imports `C.sol`. -/
def sampleHost : Host :=
  let a := "import \x22./B.sol\x22;"
  let b := "import \x22./A.sol\x22;\nimport \x22./X.sol\x22;"
  let c := "import \x22./A.sol\x22;"
  .ofFiles (sampleFiles a.toUTF8.data.toList b.toUTF8.data.toList c.toUTF8.data.toList) [] ⟨"/"⟩

/-- The graph of the tree. -/
def sampleGraph : ImportGraph :=
  (Tree.graph sampleHost.files sampleHost.cwd ⟨"/t"⟩).toOption.getD .empty

/-- The export of `A.sol` and what it imports to `/d`. -/
def sampleRun : Except Failure (List Path) × Host :=
  Action.run (run ⟨"/t"⟩ ⟨"/d"⟩ sampleGraph (sampleGraph.closure [0]) false) sampleHost

theorem wellFormed_sampleFiles (a b c : List UInt8) : (sampleFiles a b c).WellFormed := by
  have hroot : empty.get? ([] : Location) = some .dir := rfl
  have ht : (empty.put ([] ++ [("t" : OsString)]) .dir).WellFormed :=
    wellFormed_empty.put hroot (get?_empty (by simp)) (by decide)
  have hsrc : ((empty.put ["t"] .dir).put ((["t"] : Location) ++ [("src" : OsString)]) .dir).WellFormed :=
    ht.put (by simp [get?_put_of_ne_nil]) (by simp [get?_put_of_ne_nil, get?_empty]) (by decide)
  -- Each of the files is put in `src`.
  have hfile : ∀ (fs : FileSystem) (n : String) (bytes : List UInt8), fs.WellFormed →
      fs.get? ["t", "src"] = some .dir → fs.get? ["t", "src", n] = none → IsFileName (n : OsString) →
        (fs.put ["t", "src", n] (.file bytes)).WellFormed :=
    fun _ _ _ h hdir hnone hn => h.put hdir hnone hn
  have ha := hfile _ "A.sol" a hsrc (by simp [get?_put_of_ne_nil])
    (by simp [get?_put_of_ne_nil, get?_empty]) (by decide)
  have hb := hfile _ "B.sol" b ha (by simp [get?_put_of_ne_nil])
    (by simp [get?_put_of_ne_nil, get?_empty]) (by decide)
  exact hfile _ "C.sol" c hb (by simp [get?_put_of_ne_nil])
    (by simp [get?_put_of_ne_nil, get?_empty]) (by decide)

theorem graph_sampleHost : Tree.graph sampleHost.files sampleHost.cwd ⟨"/t"⟩ = .ok sampleGraph := by
  have hok : (Tree.graph sampleHost.files sampleHost.cwd ⟨"/t"⟩).isOk = true := by decide +kernel
  unfold sampleGraph
  cases hg : Tree.graph sampleHost.files sampleHost.cwd ⟨"/t"⟩ with
  | error e =>
    rw [hg] at hok
    cases hok
  | ok g => rfl

/-- Of two files that import each other the copy has both, and both edges. The request for what was not
in the tree is for what is not in the copy. -/
theorem record?_graph_of_export_sample :
    sampleRun.1.toOption = some [⟨"src/A.sol"⟩, ⟨"src/B.sol"⟩] ∧
      ∃ g', Tree.graph sampleRun.2.files sampleRun.2.cwd ⟨"/d"⟩ = .ok g' ∧
        (List.range g'.size).map g'.record? =
          [some ⟨"A.sol", ⟨"src/A.sol"⟩, [some ⟨"src/B.sol"⟩]⟩,
            some ⟨"B.sol", ⟨"src/B.sol"⟩, [some ⟨"src/A.sol"⟩]⟩] := by
  have hfs : sampleHost.files.WellFormed := wellFormed_sampleFiles _ _ _
  have hpaths : sampleRun.1.toOption = some [⟨"src/A.sol"⟩, ⟨"src/B.sol"⟩] := by decide +kernel
  have hrun : sampleRun = (.ok [⟨"src/A.sol"⟩, ⟨"src/B.sol"⟩], sampleRun.2) := by
    rcases hr : sampleRun with ⟨e | paths, h'⟩
    · rw [hr] at hpaths
      cases hpaths
    · rw [hr] at hpaths
      obtain rfl := Option.some.inj hpaths
      rfl
  have hnot : ∀ pos, ¬ sampleHost.files.Leads sampleHost.cwd (Path.mk "/d").pieces pos := by
    intro pos hl
    have hfind := walk_find_eq_ok_iff.2 hl
    have hvacant : sampleHost.files.walk .find maxLinks sampleHost.cwd (Path.mk "/d").pieces =
        .ok (.vacant [] "d") := by decide +kernel
    rw [hfind] at hvacant
    cases hvacant
  have hends := ends_of_run (h := sampleHost) rfl hrun
  have hnew := isNew_of_ends hfs rfl graph_sampleHost hends (by decide +kernel) hnot
  obtain ⟨g', hg', hrecords⟩ := record?_graph_of_export hfs graph_sampleHost hends hnew
  refine ⟨hpaths, g', hg', hrecords.trans ?_⟩
  decide +kernel

end Export

end SolVendor
