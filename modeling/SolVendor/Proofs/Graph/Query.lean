import SolVendor.Proofs.Graph.Build
import SolVendor.Proofs.Graph.Closure
import SolVendor.Proofs.Path.Unicode
/-!
# Graph — queries

A graph that has been built is well indexed (`wellIndexed_of_build`), so a
query that is the path of a node means that node
(`WellIndexed.find_of_node?`), however many others have its name. What
queries mean depends on the names and paths of the nodes and on nothing
else: two graphs of the same files answer alike (`IsGraphOf.select_congr`),
whatever these files hold. Queries are looked up one after the other, up to
the first that fails (`mapM_eq_ok_iff`, `mapM_eq_error_iff`).
-/

namespace SolVendor

/-! ## Steps one after the other -/

section

variable {α β ε : Type} {f : α → Except ε β} {l : List α} {bs : List β} {e : ε}

/-- All succeed, with these results. -/
theorem mapM_eq_ok_iff : l.mapM f = .ok bs ↔ l.map f = bs.map .ok := by
  induction l generalizing bs with
  | nil =>
    cases bs with
    | nil => exact ⟨fun _ => rfl, fun _ => rfl⟩
    | cons b bs => exact ⟨nofun, nofun⟩
  | cons a l ih =>
    rw [List.mapM_cons, List.map_cons]
    constructor
    · intro h
      rcases ha : f a with e | b
      · rw [ha] at h
        cases h
      rcases hl : l.mapM f with e | rest
      · rw [ha, hl] at h
        cases h
      rw [ha, hl] at h
      obtain rfl := Except.ok.inj h
      rw [List.map_cons, ih.1 hl]
    · intro h
      cases bs with
      | nil => cases h
      | cons b rest =>
        obtain ⟨ha, hl⟩ := List.cons.inj h
        rw [ha, ih.2 hl]
        rfl

theorem mapM_eq_ok {g : α → β} (h : ∀ x ∈ l, f x = .ok (g x)) : l.mapM f = .ok (l.map g) :=
  mapM_eq_ok_iff.2 (by rw [List.map_map]; exact List.map_congr_left h)

theorem exists_of_mapM_eq_ok (h : l.mapM f = .ok bs) : ∀ x ∈ l, ∃ b, f x = .ok b := by
  intro x hx
  have hmem := List.mem_map_of_mem (f := f) hx
  rw [mapM_eq_ok_iff.1 h] at hmem
  obtain ⟨b, -, hb⟩ := List.mem_map.1 hmem
  exact ⟨b, hb.symm⟩

/-- One fails, with this error, and all before it succeed. -/
theorem mapM_eq_error_iff : l.mapM f = .error e ↔
    ∃ before a after, l = before ++ a :: after ∧ (∀ x ∈ before, ∃ b, f x = .ok b) ∧ f a = .error e := by
  induction l with
  | nil =>
    refine ⟨nofun, ?_⟩
    rintro ⟨before, a, after, hl, -⟩
    exact absurd hl.symm (List.append_ne_nil_of_right_ne_nil before (List.cons_ne_nil a after))
  | cons a l ih =>
    rw [List.mapM_cons]
    constructor
    · intro h
      rcases ha : f a with e' | b
      · rw [ha] at h
        obtain rfl := Except.error.inj h
        exact ⟨[], a, l, rfl, nofun, ha⟩
      rcases hl : l.mapM f with e' | rest
      · rw [ha, hl] at h
        obtain rfl := Except.error.inj h
        obtain ⟨before, x, after, rfl, hbefore, hx⟩ := ih.1 hl
        exact ⟨a :: before, x, after, rfl, List.forall_mem_cons.2 ⟨⟨b, ha⟩, hbefore⟩, hx⟩
      · rw [ha, hl] at h
        cases h
    · rintro ⟨before, x, after, hl, hbefore, hx⟩
      cases before with
      | nil =>
        obtain ⟨rfl, rfl⟩ := List.cons.inj hl
        rw [hx]
        rfl
      | cons y before =>
        obtain ⟨rfl, rfl⟩ := List.cons.inj hl
        obtain ⟨⟨b, ha⟩, hbefore⟩ := List.forall_mem_cons.1 hbefore
        rw [ha, ih.2 ⟨before, x, after, rfl, hbefore, hx⟩]
        rfl

end

namespace ImportGraph

variable {g g' : ImportGraph} {files : List DiscoveredFile} {opener opener' : Opener}
  {i : NodeId} {p : Path} {node : SourceFile} {query : String} {queries : List String}

/-! ## The index of a graph that has been built -/

/-- Scanning a node keeps a graph well indexed. -/
theorem WellIndexed.scanNode (h : g.WellIndexed) (hrun : scanNode opener g i = .ok g') :
    g'.WellIndexed := by
  unfold ImportGraph.scanNode at hrun
  split at hrun
  · obtain rfl := Except.ok.inj hrun
    exact h
  · rename_i node _
    cases hopen : opener node.path with
    | error e =>
      rw [hopen] at hrun
      cases hrun
    | ok reader =>
      cases hspecs : reader.specifiers node.path with
      | error e =>
        simp only [hopen, hspecs, bind, Except.bind] at hrun
        cases hrun
      | ok specs =>
        simp only [hopen, hspecs, bind, Except.bind] at hrun
        obtain rfl := Except.ok.inj hrun
        exact h.setDeps fun j hj => h.targets_lt hj

/-- Scanning nodes one after the other keeps it so. -/
theorem WellIndexed.foldlM_scanNode (h : g.WellIndexed) {ids : List NodeId}
    (hrun : ids.foldlM (ImportGraph.scanNode opener) g = .ok g') : g'.WellIndexed := by
  induction ids generalizing g with
  | nil =>
    obtain rfl := Except.ok.inj hrun
    exact h
  | cons i ids ih =>
    rw [List.foldlM_cons] at hrun
    cases hscan : ImportGraph.scanNode opener g i with
    | error e =>
      rw [hscan] at hrun
      cases hrun
    | ok next =>
      rw [hscan] at hrun
      exact ih (h.scanNode hscan) hrun

/-- **A graph that has been built is well indexed.** -/
theorem wellIndexed_of_build (h : build files opener = .ok g) : g.WellIndexed :=
  (wellIndexed_ofFiles files).foldlM_scanNode h

/-! ## Looking for a path -/

/-- **A path finds the node at its normal form**, and nothing else. -/
theorem WellIndexed.lookup?_eq_some_iff (h : g.WellIndexed) :
    g.lookup? p = some i ↔ ∃ node, g.node? i = some node ∧ node.path = p.normalize :=
  h.index

/-- The path of a node means this node, if it is a text. -/
theorem WellIndexed.find_of_node? (h : g.WellIndexed) (hi : g.node? i = some node)
    (hunicode : node.path.IsUnicode) : g.find node.path.text = .ok i := by
  have hlookup : g.lookup? ⟨node.path.text⟩ = some i := by
    rw [Path.mk_text hunicode]
    exact h.lookup?_eq_some_iff.2 ⟨node, hi, (h.normal hi).symm⟩
  unfold find
  rw [hlookup]

/-- Selecting by the path of a node selects it alone. -/
theorem WellIndexed.select_singleton (h : g.WellIndexed) (hi : g.node? i = some node)
    (hunicode : node.path.IsUnicode) : g.select [node.path.text] = .ok ((∅ : NodeSet).insert i) := by
  unfold select
  rw [List.mapM_cons, h.find_of_node? hi hunicode]
  rfl

/-- The nodes with a name are those that have it. -/
theorem mem_named {name : String} {x : NodeId × SourceFile} :
    x ∈ g.named name ↔ g.node? x.1 = some x.2 ∧ x.2.name = name := by
  unfold named
  rw [List.mem_map]
  constructor
  · rintro ⟨⟨m, j⟩, hmem, rfl⟩
    obtain ⟨hzip, hname⟩ := List.mem_filter.1 hmem
    exact ⟨mem_zipIdx_nodes.1 hzip, of_decide_eq_true hname⟩
  · rintro ⟨hnode, hname⟩
    exact ⟨(x.2, x.1), List.mem_filter.2 ⟨mem_zipIdx_nodes.2 hnode, decide_eq_true hname⟩, rfl⟩

/-- What a query means is a node. -/
theorem WellIndexed.exists_node?_of_find (h : g.WellIndexed) (hfind : g.find query = .ok i) :
    ∃ node, g.node? i = some node := by
  unfold find at hfind
  split at hfind
  · rename_i hlookup
    obtain rfl := Except.ok.inj hfind
    obtain ⟨node, hi, -⟩ := h.lookup?_eq_some_iff.1 hlookup
    exact ⟨node, hi⟩
  · split at hfind
    · rename_i j node hnamed
      obtain rfl := Except.ok.inj hfind
      exact ⟨node, (mem_named.1 (hnamed ▸ List.mem_singleton_self (j, node))).1⟩
    · cases hfind
    · cases hfind

/-- **What is selected is what the queries mean.** -/
theorem mem_of_select {selected : NodeSet} (hselect : g.select queries = .ok selected) :
    i ∈ selected ↔ ∃ query ∈ queries, g.find query = .ok i := by
  have hfold : ∀ (ids : List NodeId) (start : NodeSet),
      i ∈ ids.foldl (fun s j => s.insert j) start ↔ i ∈ start ∨ i ∈ ids := by
    intro ids
    induction ids with
    | nil => simp
    | cons j ids ih =>
      intro start
      rw [List.foldl_cons, ih, Walk.mem_insert_visited, List.mem_cons, or_assoc, or_left_comm]
  unfold select at hselect
  rcases hids : queries.mapM g.find with e | ids
  · rw [hids] at hselect
    cases hselect
  rw [hids] at hselect
  obtain rfl := Except.ok.inj hselect
  have hmem : i ∈ ids ↔ Except.ok i ∈ queries.map g.find := by
    rw [mapM_eq_ok_iff.1 hids]
    simp
  rw [hfold, hmem, List.mem_map]
  simp

/-! ## Graphs of the same files -/

/-- The nodes of graphs of the same files have the same names and paths. -/
theorem IsGraphOf.map_node?_congr (h : g.IsGraphOf files opener) (h' : g'.IsGraphOf files opener')
    (i : NodeId) :
    (g.node? i).map (fun node => (⟨node.name, node.path⟩ : DiscoveredFile)) =
      (g'.node? i).map fun node => ⟨node.name, node.path⟩ := by
  unfold node?
  rw [← Array.getElem?_toList, ← Array.getElem?_toList, ← List.getElem?_map, ← List.getElem?_map,
    h.nodes, h'.nodes]

/-- They have the same node at each path. -/
theorem IsGraphOf.idAt?_congr (h : g.IsGraphOf files opener) (h' : g'.IsGraphOf files opener')
    (p : Path) : g.idAt? p = g'.idAt? p := by
  have hsearch : ∀ g : ImportGraph, g.idAt? p =
      (g.nodes.toList.map fun node => (⟨node.name, node.path⟩ : DiscoveredFile)).findIdx?
        fun file => file.path = p := by
    intro g
    rw [List.findIdx?_map]
    rfl
  rw [hsearch, hsearch, h.nodes, h'.nodes]

/-- The numbers and paths of the nodes with a name. -/
def placesNamed (g : ImportGraph) (name : String) : List (NodeId × Path) :=
  (g.named name).map fun (id, node) => (id, node.path)

/-- What a query means, told by numbers and paths. -/
theorem find_eq (g : ImportGraph) (query : String) :
    g.find query =
      match g.lookup? ⟨query⟩ with
      | some id => .ok id
      | none =>
        match g.placesNamed query with
        | [(id, _)] => .ok id
        | [] => .error (.noMatch query)
        | several => .error (.ambiguous query (several.map Prod.snd)) := by
  unfold find placesNamed
  cases g.lookup? ⟨query⟩ with
  | some id => rfl
  | none =>
    match g.named query with
    | [] => rfl
    | [_] => rfl
    | _ :: _ :: _ =>
      simp only [List.map_cons, List.map_map]
      rfl

theorem IsGraphOf.placesNamed_congr (h : g.IsGraphOf files opener) (h' : g'.IsGraphOf files opener')
    (name : String) : g.placesNamed name = g'.placesNamed name := by
  have hplaces : ∀ g : ImportGraph, g.placesNamed name =
      ((g.nodes.toList.map fun node => (⟨node.name, node.path⟩ : DiscoveredFile)).zipIdx.filter
        fun (file, _) => file.name = name).map fun (file, id) => (id, file.path) := by
    intro g
    unfold placesNamed named
    rw [List.zipIdx_map, List.filter_map, List.map_map, List.map_map]
    rfl
  rw [hplaces, hplaces, h.nodes, h'.nodes]

/-- **Graphs of the same files answer queries alike**, whatever the files hold. -/
theorem IsGraphOf.select_congr (h : g.IsGraphOf files opener) (h' : g'.IsGraphOf files opener')
    (hw : g.WellIndexed) (hw' : g'.WellIndexed) (queries : List String) :
    g.select queries = g'.select queries := by
  have hfind : g.find = g'.find := by
    funext query
    rw [find_eq, find_eq, h.placesNamed_congr h']
    unfold lookup?
    rw [hw.getElem?_index, hw'.getElem?_index, h.idAt?_congr h']
  unfold select
  rw [hfind]

end ImportGraph

end SolVendor
