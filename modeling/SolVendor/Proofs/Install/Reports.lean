import Mathlib.Algebra.GroupWithZero.Nat
import SolVendor.Install.Listing
import SolVendor.Proofs.Graph.Query
import SolVendor.Proofs.Install.Cached
import SolVendor.Proofs.Install.SelfContained
/-!
# Install — the two reports tell the same

The list command reports the nodes of a graph one by one, each with the
paths that it imports; the install command reports what it has selected and
what it has copied. Both reports are read here without the graph: a listing
says by itself which files are needed for the marked ones (`Listing.Needs`).

From a tree that is cached both commands see the same graph. So the files of
an installation are such as the listing says are needed, in the order of the
listing (`Installation.agrees_with_listing`). Both reports show paths as texts.
If the paths of the tree are texts (`Tree.HasUnicodePaths`), then each is told
by what it is shown as, and just the files that are needed are installed.
-/

namespace SolVendor

open ImportGraph

/-- No two nodes of the graph are shown alike. -/
def ImportGraph.ShowsApart (g : ImportGraph) : Prop :=
  ∀ {i j p q}, g.path? i = some p → g.path? j = some q → p.text = q.text → i = j

/-- The sources of a tree have paths that are texts. -/
def Tree.HasUnicodePaths (fs : FileSystem) (cwd : Position) (tree : Path) : Prop :=
  ∀ g, graph fs cwd tree = .ok g → ∀ i p, g.path? i = some p → p.IsUnicode

namespace Listing

/-- A listed file imports the file at a path. -/
def Imports (l : Listing) (p q : String) : Prop :=
  ∃ e ∈ l.files, e.path = p ∧ q ∈ e.deps

/-- The file at a path is marked as selected, or a marked file imports it, directly or not. -/
def Needs (l : Listing) (q : String) : Prop :=
  ∃ e ∈ l.files, e.selected = true ∧ Relation.ReflTransGen l.Imports e.path q

/-! ## The entries of a listing -/

variable {g : ImportGraph} {selected ids : NodeSet} {i j : NodeId} {node : SourceFile}
  {e : ListedFile} {l : Listing} {p q : Path} {r : String}

/-- How a node is listed. -/
def entryOf (g : ImportGraph) (selected : NodeSet) (id : NodeId) (node : SourceFile) : ListedFile where
  name := node.name
  path := node.path.text
  selected := selected.contains id
  deps := (g.deps id).filterMap fun dep => (g.node? dep).map fun node => node.path.text

theorem filesOf_eq (g : ImportGraph) (selected : NodeSet) :
    filesOf g selected = g.nodes.toList.zipIdx.map fun (node, id) => entryOf g selected id node := rfl

theorem mem_filesOf :
    e ∈ filesOf g selected ↔ ∃ i node, g.node? i = some node ∧ e = entryOf g selected i node := by
  rw [filesOf_eq, List.mem_map]
  constructor
  · rintro ⟨⟨node, i⟩, hmem, rfl⟩
    exact ⟨i, node, mem_zipIdx_nodes.1 hmem, rfl⟩
  · rintro ⟨i, node, hi, rfl⟩
    exact ⟨(node, i), mem_zipIdx_nodes.2 hi, rfl⟩

/-- The paths are listed in the order of the nodes. -/
theorem map_path_filesOf :
    (filesOf g selected).map ListedFile.path = g.nodes.toList.map fun node => node.path.text := by
  rw [filesOf_eq, List.map_map]
  conv_rhs => rw [← List.zipIdx_map_fst 0 g.nodes.toList, List.map_map]
  rfl

/-- **The listed files have different paths** just if no nodes are shown alike. -/
theorem nodup_map_path_filesOf_iff :
    ((filesOf g selected).map ListedFile.path).Nodup ↔ g.ShowsApart := by
  have hat : ∀ i, (g.nodes.toList.map fun node => node.path.text)[i]? = (g.path? i).map Path.text := by
    intro i
    rw [List.getElem?_map, Array.getElem?_toList, path?, Option.map_map]
    rfl
  rw [map_path_filesOf]
  constructor
  · intro hnodup i j p q hi hj htext
    have hlisted : (g.nodes.toList.map fun node => node.path.text)[i]? = some p.text := by
      rw [hat, hi]
      rfl
    refine (List.getElem?_inj (List.getElem?_eq_some_iff.1 hlisted).1 hnodup).1 ?_
    rw [hat, hat, hi, hj]
    exact congrArg some htext
  · intro hapart
    rw [List.nodup_iff_getElem?_ne_getElem?]
    intro i j hij hj heq
    rw [hat, hat] at heq
    rw [List.length_map] at hj
    obtain ⟨m, hm⟩ := exists_node?_of_lt (g := g) (i := j) (by simpa [size] using hj)
    have hq := path?_eq_some_iff.2 ⟨m, hm, rfl⟩
    rw [hq] at heq
    obtain ⟨p, hp, htext⟩ := Option.map_eq_some_iff.1 heq
    exact Nat.ne_of_lt hij (hapart hp hq htext)

/-- Paths that are texts are shown as different texts. -/
theorem showsApart_of_isUnicode (hw : g.WellIndexed) (h : ∀ i p, g.path? i = some p → p.IsUnicode) :
    g.ShowsApart := by
  intro i j p q hi hj htext
  obtain rfl := Path.eq_of_text_eq (h i p hi) (h j q hj) htext
  exact path?_inj hw.path_inj hi hj

/-- The listed imports of a node are the paths of the nodes that its edges lead to. -/
theorem mem_deps_entryOf :
    r ∈ (entryOf g selected i node).deps ↔ ∃ j ∈ g.deps i, ∃ q, g.path? j = some q ∧ q.text = r := by
  unfold entryOf
  simp only [List.mem_filterMap, Option.map_eq_some_iff, path?_eq_some_iff]
  constructor
  · rintro ⟨j, hj, m, hm, rfl⟩
    exact ⟨j, hj, m.path, ⟨m, hm, rfl⟩, rfl⟩
  · rintro ⟨j, hj, q, ⟨m, hm, rfl⟩, hr⟩
    exact ⟨j, hj, m, hm, hr⟩

/-- Edges lead to paths. -/
theorem exists_path?_of_deps (hw : g.WellIndexed) (hj : j ∈ g.deps i) : ∃ q, g.path? j = some q := by
  obtain ⟨m, hm⟩ := hw.exists_node?_of_deps hj
  exact ⟨m.path, path?_eq_some_iff.2 ⟨m, hm, rfl⟩⟩

/-- **All edges are listed.** -/
theorem sum_deps_filesOf (hw : g.WellIndexed) :
    ((filesOf g selected).map fun e => e.deps.length).sum = g.edgeCount := by
  have hlen : ∀ x ∈ g.nodes.toList.zipIdx,
      (entryOf g selected x.2 x.1).deps.length = x.1.deps.length := by
    rintro ⟨node, i⟩ hmem
    have hi := mem_zipIdx_nodes.1 hmem
    have hdeps : g.deps i = node.deps := by
      unfold deps
      rw [hi]
      rfl
    unfold entryOf
    simp only
    rw [List.filterMap_length_eq_length.2, hdeps]
    intro j hj
    obtain ⟨m, hm⟩ := hw.exists_node?_of_deps hj
    rw [hm]
    rfl
  unfold edgeCount
  rw [filesOf_eq, List.map_map, List.length_flatMap]
  conv_rhs => rw [← List.zipIdx_map_fst 0 g.nodes.toList, List.map_map]
  exact congrArg List.sum (List.map_congr_left hlen)

/-! ## Some nodes and their entries -/

/-- **Some nodes in order are those of all numbered nodes that are among them.** -/
theorem toList_eq_filter (hids : ∀ i ∈ ids, i < g.size) :
    ids.toList = (g.nodes.toList.zipIdx.filter fun x => ids.contains x.2).map Prod.snd := by
  have hrange : (g.nodes.toList.zipIdx.filter fun x => ids.contains x.2).map Prod.snd =
      (List.range g.size).filter ids.contains := by
    rw [show List.range g.size = g.nodes.toList.zipIdx.map Prod.snd by
      rw [List.zipIdx_map_snd, ← List.range_eq_range', Array.length_toList]
      rfl, List.filter_map]
    rfl
  rw [hrange]
  refine (pairwise_lt_toList ids).eq_of_mem_iff (List.pairwise_lt_range.filter _) fun i => ?_
  rw [Std.ExtTreeSet.mem_toList, List.mem_filter, List.mem_range, ← Std.ExtTreeSet.mem_iff_contains]
  exact ⟨fun hi => ⟨hids i hi, hi⟩, fun hi => hi.2⟩

/-- The paths of some nodes are those of their numbered nodes. -/
theorem pathTexts_eq_map (hids : ∀ i ∈ ids, i < g.size) :
    Installation.pathTexts g ids =
      (g.nodes.toList.zipIdx.filter fun x => ids.contains x.2).map fun x => x.1.path.text := by
  unfold Installation.pathTexts
  rw [toList_eq_filter hids, List.filterMap_map, ← List.filterMap_eq_map]
  refine List.filterMap_congr fun x hx => ?_
  have hnode := mem_zipIdx_nodes.1 (List.mem_filter.1 hx).1
  rw [Function.comp_apply, hnode]
  rfl

/-- **The paths of the selected nodes are those of the marked entries.** -/
theorem pathTexts_eq_map_filter (hids : ∀ i ∈ selected, i < g.size) :
    Installation.pathTexts g selected =
      ((filesOf g selected).filter ListedFile.selected).map ListedFile.path := by
  rw [pathTexts_eq_map hids, filesOf_eq, List.filter_map, List.map_map]
  rfl

/-- The paths of some nodes are listed in the same order, each once. -/
theorem sublist_pathTexts (hids : ∀ i ∈ ids, i < g.size) :
    (Installation.pathTexts g ids).Sublist ((filesOf g selected).map ListedFile.path) := by
  rw [pathTexts_eq_map hids, filesOf_eq, List.map_map]
  exact List.filter_sublist.map _

theorem mem_pathTexts :
    r ∈ Installation.pathTexts g ids ↔ ∃ i ∈ ids, ∃ q, g.path? i = some q ∧ q.text = r := by
  unfold Installation.pathTexts
  simp only [List.mem_filterMap, Option.map_eq_some_iff, path?_eq_some_iff,
    Std.ExtTreeSet.mem_toList]
  constructor
  · rintro ⟨i, hi, node, hn, rfl⟩
    exact ⟨i, hi, node.path, ⟨node, hn, rfl⟩, rfl⟩
  · rintro ⟨i, hi, q, ⟨node, hn, rfl⟩, hr⟩
    exact ⟨i, hi, node, hn, hr⟩

/-! ## What a listing says is needed -/

section

variable (hl : l.files = filesOf g selected)

include hl

/-- The edges of the graph are listed as imports. -/
theorem imports_of_deps (hi : g.path? i = some p) (hdep : j ∈ g.deps i) (hj : g.path? j = some q) :
    l.Imports p.text q.text := by
  obtain ⟨node, hn, rfl⟩ := path?_eq_some_iff.1 hi
  exact ⟨_, hl ▸ mem_filesOf.2 ⟨i, node, hn, rfl⟩, rfl, mem_deps_entryOf.2 ⟨j, hdep, q, hj, rfl⟩⟩

/-- They are all that is listed, if no paths are shown alike. -/
theorem exists_deps_of_imports (hapart : g.ShowsApart) (hi : g.path? i = some p)
    (himports : l.Imports p.text r) : ∃ j ∈ g.deps i, ∃ q, g.path? j = some q ∧ q.text = r := by
  obtain ⟨e, he, hp, hr⟩ := himports
  rw [hl] at he
  obtain ⟨k, m, hk, rfl⟩ := mem_filesOf.1 he
  obtain rfl := hapart (path?_eq_some_iff.2 ⟨m, hk, rfl⟩) hi hp
  exact mem_deps_entryOf.1 hr

/-- **The closure of the selection is needed.** -/
theorem needs_of_mem_closure (hw : g.WellIndexed) (hj : j ∈ g.closure selected.toList)
    (hq : g.path? j = some q) : l.Needs q.text := by
  obtain ⟨i, hi, hnode, hreach⟩ := mem_closure_iff.1 hj
  obtain ⟨node, hn⟩ := Option.isSome_iff_exists.1 hnode
  refine ⟨entryOf g selected i node, hl ▸ mem_filesOf.2 ⟨i, node, hn, rfl⟩,
    Std.ExtTreeSet.mem_iff_contains.1 (Std.ExtTreeSet.mem_toList.1 hi), ?_⟩
  show Relation.ReflTransGen l.Imports node.path.text q.text
  clear hj
  -- The way from the selected node is followed edge by edge.
  induction hreach generalizing q with
  | refl =>
    obtain ⟨m, hm, rfl⟩ := path?_eq_some_iff.1 hq
    obtain rfl := Option.some.inj (hn.symm.trans hm)
    exact .refl
  | @tail k j hk hdep ih =>
    obtain ⟨p, hp⟩ : ∃ p, g.path? k = some p := by
      rcases Relation.ReflTransGen.cases_tail hk with rfl | ⟨_, -, hdep'⟩
      · exact ⟨node.path, path?_eq_some_iff.2 ⟨node, hn, rfl⟩⟩
      · exact exists_path?_of_deps hw hdep'
    exact (ih hp).tail (imports_of_deps hl hp hdep hq)

/-- **Nothing else is**, if no paths are shown alike. -/
theorem exists_mem_closure_of_needs (hapart : g.ShowsApart) (hneeds : l.Needs r) :
    ∃ j ∈ g.closure selected.toList, ∃ q, g.path? j = some q ∧ q.text = r := by
  obtain ⟨e, he, hmark, hr⟩ := hneeds
  rw [hl] at he
  obtain ⟨i, node, hi, rfl⟩ := mem_filesOf.1 he
  have hselected : i ∈ selected.toList :=
    Std.ExtTreeSet.mem_toList.2 (Std.ExtTreeSet.mem_iff_contains.2 hmark)
  have hseed : i ∈ g.closure selected.toList :=
    mem_closure_iff.2 ⟨i, hselected, by rw [hi]; rfl, .refl⟩
  induction hr with
  | refl => exact ⟨i, hseed, node.path, path?_eq_some_iff.2 ⟨node, hi, rfl⟩, rfl⟩
  | tail _ himports ih =>
    obtain ⟨j, hj, p, hp, rfl⟩ := ih
    obtain ⟨k, hdep, hk⟩ := exists_deps_of_imports hl hapart hp himports
    exact ⟨k, mem_closure_of_deps hj hdep, hk⟩

end

end Listing

/-! ## Commands on a tree that is cached -/

/-- An export that has succeeded gives the paths of its nodes, with a dry run and without. -/
theorem Export.pathsOf_of_run {tree dest : Path} {g : ImportGraph} {ids : NodeSet} {dryRun : Bool}
    {h h' : Host} {paths : List Path}
    (hrun : Action.run (Export.run tree dest g ids dryRun) h = (.ok paths, h')) :
    Export.pathsOf g ids = .ok paths := by
  unfold Export.run at hrun
  obtain ⟨found, h₁, hpaths, hrest⟩ := Action.run_bind_eq_ok hrun
  rw [Action.run_ofExcept] at hpaths
  have hsame : found = paths := by
    cases dryRun with
    | true => exact Except.ok.inj (Prod.mk.inj hrest).1
    | false =>
      obtain ⟨⟨⟩, h₂, -, hend⟩ := Action.run_bind_eq_ok hrest
      exact Except.ok.inj (Prod.mk.inj hend).1
  rw [← hsame]
  exact (Prod.mk.inj hpaths).1

section

variable {h h' : Host} {fetcher : Fetcher} {c : Config} {d : Dependency} {root : Path} {α : Type}

/-- What both commands begin with has succeeded and changed no file: the project has been found, and the
storage with the cached tree has been opened. -/
structure IsBegun (c : Config) (d : Dependency) (root : Path) (h : Host) : Prop where
  dependency : Dependency.parse c.dependency = .ok d
  root : Project.findRoot h c.projectRoot = .ok root
  storage : Action.run (Storage.openDefault c.cacheDir) h =
    (.ok ⟨Installation.cacheRoot c h, h.storages⟩, { h with storages := h.storages + 1 })
  cached : h.isDir ((Installation.cacheRoot c h).join d.cacheKey) = true

/-- A command goes on from there, whatever it selects. -/
theorem IsBegun.run (hb : IsBegun c d root h) (f : Storage → Config → Action α)
    (queries : List String) :
    Action.run (do
        let c ← Config.settled { c with select := queries }
        let s ← Storage.openDefault c.cacheDir
        f s c) h =
      Action.run (f ⟨Installation.cacheRoot c h, h.storages⟩
        { c with projectRoot := some root, dep := some d, select := queries })
        { h with storages := h.storages + 1 } := by
  have hsettled : Action.run (Config.settled { c with select := queries }) h =
      (.ok { c with projectRoot := some root, dep := some d, select := queries }, h) := by
    unfold Config.settled
    rw [Action.run_bind, Action.run_observe]
    unfold Config.settle
    rw [hb.dependency]
    simp only
    rw [hb.root]
    rfl
  rw [Action.run_bind, hsettled]
  simp only
  rw [Action.run_bind, hb.storage]

/-- **If a command succeeds, then it has begun so.** -/
theorem exists_isBegun (hcwd : h.files.get? h.cwd.place = some .dir)
    (hd : Dependency.parse c.dependency = .ok d)
    (hc : h.isDir ((Installation.cacheRoot c h).join d.cacheKey) = true)
    {f : Storage → Config → Action α} {a : α}
    (hrun : Action.run (do
        let c ← c.settled
        let s ← Storage.openDefault c.cacheDir
        f s c) h = (.ok a, h')) : ∃ root, IsBegun c d root h := by
  obtain ⟨c', h₁, hfirst, hrest⟩ := Action.run_bind_eq_ok hrun
  rcases Installation.run_settled_cases (h := h) hd with ⟨e, he⟩ | ⟨root, c'', hroot, hc', hs⟩
  · rw [he] at hfirst
    cases hfirst
  rw [hs] at hfirst
  cases hfirst
  obtain ⟨s, h₂, hopen, -⟩ := Action.run_bind_eq_ok hrest
  rw [hc'.cacheDir] at hopen
  rcases Installation.run_openDefault_of_cached hcwd (Dependency.isAccepted_of_parse hd).1 hc hopen with
    ⟨e, he, -⟩ | ⟨hs, rfl⟩
  · cases he
  · cases hs
    exact ⟨root, hd, hroot, hopen, hc⟩

/-- Then the tree is there, and its graph is looked for. -/
theorem IsBegun.run_resolve (hb : IsBegun c d root h) (queries : List String) :
    Action.run (Storage.resolve ⟨Installation.cacheRoot c h, h.storages⟩ fetcher
        { c with projectRoot := some root, dep := some d, select := queries })
        { h with storages := h.storages + 1 } =
      ((Tree.graph h.files h.cwd ((Installation.cacheRoot c h).join d.cacheKey)).map fun g =>
        ⟨(Installation.cacheRoot c h).join d.cacheKey, g⟩, { h with storages := h.storages + 1 }) :=
  Installation.run_resolve_of_cached hb.dependency hb.cached

/-- **What a listing comes to.** -/
theorem IsBegun.run_listing (hb : IsBegun c d root h) (queries : List String) :
    Action.run (Listing.run fetcher { c with select := queries }) h =
      ((Tree.graph h.files h.cwd ((Installation.cacheRoot c h).join d.cacheKey)).bind fun g =>
        (g.select queries).map fun selected =>
          ⟨d, (Installation.cacheRoot c h).join d.cacheKey, Listing.filesOf g selected, g.edgeCount⟩,
        { h with storages := h.storages + 1 }) := by
  unfold Listing.run
  rw [hb.run (fun s c => Listing.ofStorage s fetcher c) queries]
  unfold Listing.ofStorage Config.spec
  rw [Action.run_bind, Action.run_ofExcept]
  simp only
  rw [Action.run_bind, hb.run_resolve]
  rcases Tree.graph h.files h.cwd ((Installation.cacheRoot c h).join d.cacheKey) with e | g
  · rfl
  · simp only [Except.map, Except.bind]
    rw [Action.run_bind, Action.run_ofExcept]
    rcases g.select queries with e | selected <;> rfl

/-- What an installation that has succeeded reports. -/
theorem IsBegun.exists_of_installation (hb : IsBegun c d root h) {r : Installation}
    (hrun : Action.run (Installation.run fetcher c) h = (.ok r, h')) :
    ∃ g selected, Tree.graph h.files h.cwd ((Installation.cacheRoot c h).join d.cacheKey) = .ok g ∧
      g.select c.select = .ok selected ∧ r.selected = Installation.pathTexts g selected ∧
      Export.pathsOf g (g.closure selected.toList) = .ok r.files := by
  have hbegin := hb.run (fun s c => Installation.ofStorage s fetcher c) c.select
  unfold Installation.run at hrun
  rw [hbegin] at hrun
  unfold Installation.ofStorage Config.spec at hrun
  rw [Action.run_bind, Action.run_ofExcept] at hrun
  simp only at hrun
  split at hrun
  · cases hrun
  rw [Action.run_bind, hb.run_resolve] at hrun
  rcases hg : Tree.graph h.files h.cwd ((Installation.cacheRoot c h).join d.cacheKey) with e | g
  · rw [hg] at hrun
    cases hrun
  rw [hg] at hrun
  simp only [Except.map] at hrun
  obtain ⟨selected, h₂, hselect, hrun⟩ := Action.run_bind_eq_ok hrun
  rw [Action.run_ofExcept] at hselect
  obtain ⟨hselect, -⟩ := Prod.mk.inj hselect
  obtain ⟨dest, h₃, -, hrun⟩ := Action.run_bind_eq_ok hrun
  obtain ⟨copied, h₄, hexport, hend⟩ := Action.run_bind_eq_ok hrun
  have hend : (Except.ok _, h₄) = (Except.ok r, h') := hend
  obtain rfl := Except.ok.inj (Prod.mk.inj hend).1
  exact ⟨g, selected, rfl, hselect, rfl, Export.pathsOf_of_run hexport⟩

/-- What a listing that has succeeded reports. -/
theorem IsBegun.exists_of_listing (hb : IsBegun c d root h) {l : Listing}
    (hrun : Action.run (Listing.run fetcher c) h = (.ok l, h')) :
    ∃ g selected, Tree.graph h.files h.cwd ((Installation.cacheRoot c h).join d.cacheKey) = .ok g ∧
      g.select c.select = .ok selected ∧ l.files = Listing.filesOf g selected ∧
      l.edges = g.edgeCount ∧ h' = { h with storages := h.storages + 1 } := by
  have hrun := (hb.run_listing c.select).symm.trans hrun
  obtain ⟨hresult, rfl⟩ := Prod.mk.inj hrun
  rcases hg : Tree.graph h.files h.cwd ((Installation.cacheRoot c h).join d.cacheKey) with e | g
  · rw [hg] at hresult
    cases hresult
  rw [hg] at hresult
  rcases hselect : g.select c.select with e | selected
  · simp only [Except.bind, hselect] at hresult
    cases hresult
  · simp only [Except.bind, hselect] at hresult
    obtain rfl := Except.ok.inj hresult
    exact ⟨g, selected, rfl, hselect, rfl, rfl, rfl⟩

/-- Selecting by the path of one entry marks this entry and no other, if paths are texts. -/
theorem IsBegun.exists_listing_of_mem (hb : IsBegun c d root h) {g : ImportGraph} {selected : NodeSet}
    (hg : Tree.graph h.files h.cwd ((Installation.cacheRoot c h).join d.cacheKey) = .ok g)
    (hw : g.WellIndexed) (hunicode : ∀ i p, g.path? i = some p → p.IsUnicode) {e : ListedFile}
    (he : e ∈ Listing.filesOf g selected) :
    ∃ l, (Action.run (Listing.run fetcher { c with select := [e.path] }) h).1 = .ok l ∧
      l.files = (Listing.filesOf g selected).map fun f => { f with selected := f.path = e.path } := by
  obtain ⟨i, node, hi, rfl⟩ := Listing.mem_filesOf.1 he
  have hpath := path?_eq_some_iff.2 ⟨node, hi, rfl⟩
  rw [hb.run_listing, hg]
  simp only [Except.bind]
  rw [show (Listing.entryOf g selected i node).path = node.path.text from rfl,
    hw.select_singleton hi (hunicode i _ hpath)]
  refine ⟨_, rfl, ?_⟩
  show Listing.filesOf g _ = _
  rw [Listing.filesOf_eq, Listing.filesOf_eq, List.map_map]
  refine List.map_congr_left fun x hx => ?_
  have hx := mem_zipIdx_nodes.1 hx
  have hmark : ((∅ : NodeSet).insert i).contains x.2 = decide (x.1.path.text = node.path.text) := by
    rw [Bool.eq_iff_iff, ← Std.ExtTreeSet.mem_iff_contains, Walk.mem_insert_visited,
      decide_eq_true_eq]
    constructor
    · rintro (heq | hnone)
      · rw [heq, hi] at hx
        rw [Option.some.inj hx]
      · exact absurd hnone Std.ExtTreeSet.not_mem_empty
    · intro htext
      exact .inl (Listing.showsApart_of_isUnicode hw hunicode (path?_eq_some_iff.2 ⟨x.1, hx, rfl⟩) hpath htext)
  simp only [Function.comp_apply, Listing.entryOf, hmark]

end

/-- **A listing and an installation tell the same.** They are of one configuration, whose tree is cached, and
the installation is made on the same host or after the listing. Then all that is imported is listed, and all
edges are; what the installation has selected are the marked entries; and what it has copied are entries that
the listing says are needed, in its order, each once. If the listed paths are different, then it has copied all
that are needed. The paths may be shown alike if they are no texts. But if they are texts, then they are listed
as different paths, and each of them alone selects its own entry. -/
theorem Installation.agrees_with_listing {h h' k k' : Host} {fetcher : Fetcher} {c : Config}
    {d : Dependency} {l : Listing} {r : Installation}
    (hcwd : h.files.get? h.cwd.place = some .dir) (hd : Dependency.parse c.dependency = .ok d)
    (hc : h.isDir ((Installation.cacheRoot c h).join d.cacheKey) = true)
    (hlist : Action.run (Listing.run fetcher c) h = (.ok l, h')) (hk : k = h ∨ k = h')
    (hinstall : Action.run (Installation.run fetcher c) k = (.ok r, k')) :
    (∀ e ∈ l.files, ∀ q ∈ e.deps, ∃ f ∈ l.files, f.path = q) ∧
      l.edges = (l.files.map fun e => e.deps.length).sum ∧
      r.selected = (l.files.filter ListedFile.selected).map ListedFile.path ∧
      (r.files.map Path.text).Sublist (l.files.map ListedFile.path) ∧
      (∀ q ∈ r.files, l.Needs q.text) ∧
      ((l.files.map ListedFile.path).Nodup → ∀ q, l.Needs q → q ∈ r.files.map Path.text) ∧
      (Tree.HasUnicodePaths h.files h.cwd ((Installation.cacheRoot c h).join d.cacheKey) →
        (l.files.map ListedFile.path).Nodup ∧
          ∀ e ∈ l.files, ∃ l', (Action.run (Listing.run fetcher { c with select := [e.path] }) h).1 =
            .ok l' ∧ l'.files = l.files.map fun f => { f with selected := f.path = e.path }) := by
  obtain ⟨root, hb⟩ := exists_isBegun hcwd hd hc hlist
  obtain ⟨g, selected, hg, hselect, hfiles, hedges, rfl⟩ := hb.exists_of_listing hlist
  -- The installation sees the same files, so it builds the same graph and selects the same nodes.
  obtain ⟨g', selected', hg', hselect', hr, hpaths⟩ : ∃ g selected,
      Tree.graph h.files h.cwd ((Installation.cacheRoot c h).join d.cacheKey) = .ok g ∧
        g.select c.select = .ok selected ∧ r.selected = Installation.pathTexts g selected ∧
        Export.pathsOf g (g.closure selected.toList) = .ok r.files := by
    rcases hk with rfl | rfl
    · obtain ⟨_, hb'⟩ := exists_isBegun hcwd hd hc hinstall
      exact hb'.exists_of_installation hinstall
    · obtain ⟨_, hb'⟩ := exists_isBegun (h := { h with storages := h.storages + 1 }) hcwd hd hc hinstall
      exact hb'.exists_of_installation hinstall
  obtain rfl := Except.ok.inj (hg.symm.trans hg')
  obtain rfl := Except.ok.inj (hselect.symm.trans hselect')
  have hw : g.WellIndexed := by
    obtain ⟨files, -, hbuild⟩ := FileSystem.exists_of_bind_eq_ok hg
    exact ImportGraph.wellIndexed_of_build hbuild
  have hclosure : ∀ i ∈ g.closure selected.toList, i < g.size := fun i hi => by
    obtain ⟨p, hp⟩ := Export.exists_path?_of_pathsOf hpaths hi
    obtain ⟨node, hn, -⟩ := path?_eq_some_iff.1 hp
    exact lt_size_of_node? hn
  have hselected : ∀ i ∈ selected, i < g.size := fun i hi => by
    obtain ⟨query, -, hfind⟩ := (mem_of_select hselect).1 hi
    obtain ⟨node, hn⟩ := hw.exists_node?_of_find hfind
    exact lt_size_of_node? hn
  have htexts : r.files.map Path.text = Installation.pathTexts g (g.closure selected.toList) := by
    have hsome : (Installation.pathTexts g (g.closure selected.toList)) =
        ((g.closure selected.toList).toList.map g.path?).filterMap (Option.map Path.text) := by
      rw [List.filterMap_map]
      unfold Installation.pathTexts
      refine List.filterMap_congr fun i _ => ?_
      rw [Function.comp_apply, path?, Option.map_map]
      rfl
    rw [hsome, Export.map_path?_of_pathsOf hpaths, List.filterMap_map, ← List.filterMap_eq_map]
    rfl
  refine ⟨?_, ?_, ?_, ?_, ?_, ?_, ?_⟩
  · intro e he q hq
    rw [hfiles] at he ⊢
    obtain ⟨i, node, hi, rfl⟩ := Listing.mem_filesOf.1 he
    obtain ⟨j, -, p, hj, rfl⟩ := Listing.mem_deps_entryOf.1 hq
    obtain ⟨m, hm, rfl⟩ := path?_eq_some_iff.1 hj
    exact ⟨_, Listing.mem_filesOf.2 ⟨j, m, hm, rfl⟩, rfl⟩
  · rw [hfiles, hedges, Listing.sum_deps_filesOf hw]
  · rw [hr, hfiles]
    exact Listing.pathTexts_eq_map_filter hselected
  · rw [htexts, hfiles]
    exact Listing.sublist_pathTexts hclosure
  · intro q hq
    obtain ⟨j, hj, hpath⟩ := (Export.mem_of_pathsOf hpaths).1 hq
    exact Listing.needs_of_mem_closure hfiles hw hj hpath
  · intro hnodup q hneeds
    rw [hfiles, Listing.nodup_map_path_filesOf_iff] at hnodup
    rw [htexts, Listing.mem_pathTexts]
    exact Listing.exists_mem_closure_of_needs hfiles hnodup hneeds
  · intro hunicode
    refine ⟨?_, fun e he => ?_⟩
    · rw [hfiles, Listing.nodup_map_path_filesOf_iff]
      exact Listing.showsApart_of_isUnicode hw (hunicode g hg)
    · rw [hfiles] at he ⊢
      exact hb.exists_listing_of_mem hg hw (hunicode g hg) he

/-! ## Two reports of one tree -/

namespace Listing

/-- A tree with three files that is cached, and a project at `/p`. -/
def cachedHost (a b x : OsString × List UInt8) : Host :=
  let place (file : OsString) : Location := ["cache", "a", "b@1.0.0", "src", file]
  .ofFiles
    ((((FileSystem.empty.plant (place a.1) (.file a.2)).plant (place b.1) (.file b.2)).plant
      (place x.1) (.file x.2)).plant ["p", "Makefile"] (.file [])) ["p"] ⟨"/"⟩

/-- Of its three files `X.sol` imports `A.sol` only. -/
def sampleHost : Host :=
  cachedHost ("A.sol", []) ("B.sol", []) ("X.sol", "import './A.sol';".toUTF8.data.toList)

def sampleConfig : Config :=
  { dependency := "a/b@1.0.0", cacheDir := some ⟨"/cache"⟩, select := ["X.sol"], dryRun := true }

/-- The listing, and the installation after it. -/
def sampleRun : Except Failure Listing × Host :=
  Action.run (run (Fetcher.scripted []) sampleConfig) sampleHost

def sampleInstall : Except Failure Installation × Host :=
  Action.run (Installation.run (Fetcher.scripted []) sampleConfig) sampleRun.2

end Listing

/-- Paths are texts if all those of the graph are. -/
theorem Tree.hasUnicodePaths_of_forall {fs : FileSystem} {cwd : Position} {tree : Path}
    (h : (graph fs cwd tree).toOption.all fun g => g.nodes.all fun node => decide node.path.IsUnicode) :
    HasUnicodePaths fs cwd tree := by
  intro g hg i p hp
  obtain ⟨node, hn, rfl⟩ := path?_eq_some_iff.1 hp
  rw [hg] at h
  obtain ⟨hi, hnode⟩ := Array.getElem?_eq_some_iff.1 hn
  have hall := Array.all_eq_true.1 h i hi
  rw [hnode] at hall
  exact of_decide_eq_true hall

/-- The listing of the sample says what the installation has copied. -/
theorem Installation.agrees_with_listing_sample :
    ∃ l r, Listing.sampleRun.1 = .ok l ∧ Listing.sampleInstall.1 = .ok r ∧
      r.files = [⟨"src/A.sol"⟩, ⟨"src/X.sol"⟩] ∧ l.Needs "src/A.sol" ∧ ¬ l.Needs "src/B.sol" := by
  obtain ⟨hlisted, hinstalled⟩ : Listing.sampleRun.1.toOption.isSome = true ∧
      Listing.sampleInstall.1.toOption.map Installation.files =
        some [⟨"src/A.sol"⟩, ⟨"src/X.sol"⟩] := by decide +kernel
  rcases hl : Listing.sampleRun with ⟨e | l, h'⟩
  · rw [hl] at hlisted
    cases hlisted
  rcases hr : Listing.sampleInstall with ⟨e | r, k'⟩
  · rw [hr] at hinstalled
    cases hinstalled
  rw [hr] at hinstalled
  have hfiles : r.files = [⟨"src/A.sol"⟩, ⟨"src/X.sol"⟩] := Option.some.inj hinstalled
  have hd : Dependency.parse Listing.sampleConfig.dependency = .ok ⟨"a/b", "1.0.0", "a/b@1.0.0"⟩ := by
    decide +kernel
  have hc : Listing.sampleHost.isDir ((Installation.cacheRoot Listing.sampleConfig
      Listing.sampleHost).join (Dependency.cacheKey ⟨"a/b", "1.0.0", "a/b@1.0.0"⟩)) = true := by
    decide +kernel
  have hcwd : Listing.sampleHost.files.get? Listing.sampleHost.cwd.place = some .dir := by
    decide +kernel
  have hinstall : Action.run (Installation.run (Fetcher.scripted []) Listing.sampleConfig) h' =
      (.ok r, k') := by
    unfold Listing.sampleInstall at hr
    rwa [hl] at hr
  obtain ⟨-, -, -, -, hneeded, hall, hunicode⟩ :=
    Installation.agrees_with_listing hcwd hd hc hl (.inr rfl) hinstall
  obtain ⟨hnodup, -⟩ := hunicode (Tree.hasUnicodePaths_of_forall (by decide +kernel))
  have hB : "src/B.sol" ∉ r.files.map Path.text := by
    rw [hfiles]
    decide +kernel
  exact ⟨l, r, rfl, rfl, hfiles, hneeded ⟨"src/A.sol"⟩ (hfiles ▸ List.mem_cons_self),
    fun hneeds => hB (hall hnodup _ hneeds)⟩

/-- Two sources that are no texts are listed at one path, and this path selects neither of them. -/
theorem Listing.files_shown_alike :
    let ending := (".sol" : OsString).bytes
    let h := cachedHost (⟨0xFE :: ending⟩, []) (⟨0xFF :: ending⟩, []) ("X.sol", [])
    let list (query : String) :=
      (Action.run (run (Fetcher.scripted []) { sampleConfig with select := [query] }) h).1
    (list "X.sol").map (fun l => l.files.map ListedFile.path) =
        .ok ["src/X.sol", "src/\uFFFD.sol", "src/\uFFFD.sol"] ∧
      (Action.run (Installation.run (Fetcher.scripted []) sampleConfig) h).1.map Installation.files =
        .ok [⟨"src/X.sol"⟩] ∧
      list "src/\uFFFD.sol" = .error (.noMatch "src/\uFFFD.sol") := by
  decide +kernel

end SolVendor
