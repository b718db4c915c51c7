import SolVendor.Graph.Build
import SolVendor.Proofs.Path.NormalForm
/-!
# Graph — the index

A graph is well indexed when its index names each node at the normal form
of its path and nothing else, and its edges stay inside the graph. The
graph without nodes is, and every step of building keeps it so
(`WellIndexed.add`, `WellIndexed.setDeps`). In a well-indexed graph no two
nodes share a path (`WellIndexed.path_inj`), so that "the node at a path"
has a meaning apart from the index: `idAt?` finds it by looking through
the nodes, and `lookup?` agrees with it (`WellIndexed.getElem?_index`).
-/

namespace SolVendor.ImportGraph

variable {g : ImportGraph} {i j : Nat} {p : Path} {node : SourceFile}

/-- The first node at a path, found by looking through all nodes. -/
def idAt? (g : ImportGraph) (p : Path) : Option NodeId :=
  g.nodes.toList.findIdx? fun node => node.path = p

/-- The index names each node at its path, which is in normal form, and nothing else; all edges
lead to nodes. -/
structure WellIndexed (g : ImportGraph) : Prop where
  normal : ∀ {i node}, g.node? i = some node → node.path.normalize = node.path
  index : ∀ {p i}, g.index[p]? = some i ↔ ∃ node, g.node? i = some node ∧ node.path = p
  deps_lt : ∀ {i node}, g.node? i = some node → ∀ j ∈ node.deps, j < g.size

theorem lt_size_of_node? (h : g.node? i = some node) : i < g.size :=
  (Array.getElem?_eq_some_iff.1 h).1

theorem exists_node?_of_lt (h : i < g.size) : ∃ node, g.node? i = some node :=
  ⟨_, Array.getElem?_eq_getElem h⟩

theorem mem_nodes_of_node? (h : g.node? i = some node) : node ∈ g.nodes :=
  Array.mem_of_getElem? h

/-- The numbered nodes are the nodes by their numbers. -/
theorem mem_zipIdx_nodes {x : SourceFile × NodeId} :
    x ∈ g.nodes.toList.zipIdx ↔ g.node? x.2 = some x.1 := by
  rw [List.mem_zipIdx_iff_getElem?, Array.getElem?_toList]
  rfl

/-! ## What being well indexed means -/

/-- **No two nodes share a path.** -/
theorem WellIndexed.path_inj (h : g.WellIndexed) {m : SourceFile} (hi : g.node? i = some node)
    (hj : g.node? j = some m) (hp : node.path = m.path) : i = j := by
  have hi' : g.index[m.path]? = some i := h.index.2 ⟨node, hi, hp⟩
  have hj' : g.index[m.path]? = some j := h.index.2 ⟨m, hj, rfl⟩
  exact Option.some.inj (hi'.symm.trans hj')

/-- Edges lead to nodes. -/
theorem WellIndexed.exists_node?_of_deps (h : g.WellIndexed) (hj : j ∈ g.deps i) :
    ∃ node, g.node? j = some node := by
  unfold deps at hj
  cases hi : g.node? i with
  | none =>
    rw [hi] at hj
    exact absurd hj List.not_mem_nil
  | some node =>
    rw [hi] at hj
    exact exists_node?_of_lt (h.deps_lt hi j hj)

theorem exists_node?_of_idAt? (h : g.idAt? p = some i) :
    ∃ node, g.node? i = some node ∧ node.path = p := by
  unfold idAt? at h
  rw [List.findIdx?_eq_some_iff_getElem] at h
  obtain ⟨hlt, hp, -⟩ := h
  refine ⟨g.nodes.toList[i], ?_, by simpa using hp⟩
  unfold node?
  rw [← Array.getElem?_toList, List.getElem?_eq_getElem hlt]

/-- **The index agrees with a search through the nodes.** -/
theorem WellIndexed.getElem?_index (h : g.WellIndexed) (p : Path) : g.index[p]? = g.idAt? p := by
  cases hs : g.idAt? p with
  | some i =>
    exact h.index.2 (exists_node?_of_idAt? hs)
  | none =>
    rw [Option.eq_none_iff_forall_ne_some]
    intro i hi
    obtain ⟨node, hn, hp⟩ := h.index.1 hi
    unfold idAt? at hs
    rw [List.findIdx?_eq_none_iff] at hs
    have hne := hs node (by simpa using mem_nodes_of_node? hn)
    simp [hp] at hne

theorem WellIndexed.idAt?_eq_some_iff (h : g.WellIndexed) :
    g.idAt? p = some i ↔ ∃ node, g.node? i = some node ∧ node.path = p := by
  rw [← h.getElem?_index, h.index]

/-- A path is in the index when some node has it. -/
theorem WellIndexed.contains_index (h : g.WellIndexed) :
    g.index.contains p = true ↔ ∃ node ∈ g.nodes, node.path = p := by
  rw [Std.ExtTreeMap.contains_eq_isSome_getElem?, Option.isSome_iff_exists]
  constructor
  · rintro ⟨i, hi⟩
    obtain ⟨node, hn, hp⟩ := h.index.1 hi
    exact ⟨node, mem_nodes_of_node? hn, hp⟩
  · rintro ⟨node, hn, hp⟩
    obtain ⟨i, hi⟩ := Array.mem_iff_getElem?.1 hn
    exact ⟨i, h.index.2 ⟨node, hi, hp⟩⟩

/-! ## Building keeps a graph well indexed -/

theorem wellIndexed_empty : empty.WellIndexed := by
  constructor
  · intro i node h
    simp [node?, empty] at h
  · intro p i
    simp [node?, empty]
  · intro i node h
    simp [node?, empty] at h

/-- The nodes after a file with a new path has been added. -/
theorem node?_push {m : SourceFile} {index : Std.ExtTreeMap Path NodeId} :
    (ImportGraph.mk (g.nodes.push m) index).node? i =
      if i = g.size then some m else g.node? i :=
  Array.getElem?_push

/-- **Adding a file keeps the index right.** -/
theorem WellIndexed.add (h : g.WellIndexed) (file : DiscoveredFile) : (g.add file).WellIndexed := by
  unfold ImportGraph.add
  simp only
  split
  · exact h
  · rename_i hnew
    have hnew' : ∀ {i node}, g.node? i = some node → node.path ≠ file.path.normalize :=
      fun hn hp => hnew (h.contains_index.2 ⟨_, mem_nodes_of_node? hn, hp⟩)
    -- The new node is the last one, and no other has its path.
    constructor
    · intro i node hn
      rw [node?_push] at hn
      split at hn
      · obtain rfl := Option.some.inj hn
        exact Path.normalize_normalize _
      · exact h.normal hn
    · intro p i
      rw [Std.ExtTreeMap.getElem?_insert, node?_push]
      by_cases hp : file.path.normalize = p
      · subst hp
        rw [if_pos (Std.LawfulEqOrd.compare_eq_iff_eq.2 rfl)]
        constructor
        · intro hi
          obtain rfl := Option.some.inj hi
          exact ⟨_, if_pos rfl, rfl⟩
        · rintro ⟨node, hn, hp⟩
          split at hn
          · rename_i hi
            rw [hi]
          · exact absurd hp (hnew' hn)
      · rw [if_neg fun hc => hp (Std.LawfulEqOrd.compare_eq_iff_eq.1 hc), h.index]
        constructor
        · rintro ⟨node, hn, hq⟩
          have hlt := lt_size_of_node? hn
          exact ⟨node, by rw [if_neg (by omega)]; exact hn, hq⟩
        · rintro ⟨node, hn, hq⟩
          split at hn
          · obtain rfl := Option.some.inj hn
            exact absurd hq hp
          · exact ⟨node, hn, hq⟩
    · intro i node hn j hj
      rw [node?_push] at hn
      have hsize : (ImportGraph.mk (g.nodes.push ⟨file.name, file.path.normalize, []⟩)
          (g.index.insert file.path.normalize g.size)).size = g.size + 1 := by
        simp [size]
      rw [hsize]
      split at hn
      · obtain rfl := Option.some.inj hn
        exact absurd hj List.not_mem_nil
      · exact Nat.lt_succ_of_lt (h.deps_lt hn j hj)

theorem wellIndexed_ofFiles (files : List DiscoveredFile) : (ofFiles files).WellIndexed := by
  have hfold : ∀ (files : List DiscoveredFile) (g : ImportGraph), g.WellIndexed →
      (files.foldl ImportGraph.add g).WellIndexed := by
    intro files
    induction files with
    | nil => exact fun g h => h
    | cons file files ih => exact fun g h => ih (g.add file) (h.add file)
  exact hfold files empty wellIndexed_empty

/-- Only the edges of one node are replaced. -/
theorem node?_setDeps {deps : List NodeId} :
    (g.setDeps i deps).node? j =
      (g.node? j).map fun node => if i = j then { node with deps } else node := by
  unfold setDeps node?
  simp only [Array.getElem?_modify]
  split
  · rfl
  · exact Option.map_id_apply.symm

@[simp] theorem size_setDeps {deps : List NodeId} : (g.setDeps i deps).size = g.size := by
  simp [setDeps, size]

@[simp] theorem index_setDeps {deps : List NodeId} : (g.setDeps i deps).index = g.index := rfl

/-- **Replacing edges by edges inside the graph keeps it well indexed.** -/
theorem WellIndexed.setDeps (h : g.WellIndexed) {deps : List NodeId} (hd : ∀ j ∈ deps, j < g.size) :
    (g.setDeps i deps).WellIndexed := by
  have hnode : ∀ {j node}, (g.setDeps i deps).node? j = some node →
      ∃ old, g.node? j = some old ∧ node = if i = j then { old with deps } else old := by
    intro j node hj
    rw [node?_setDeps] at hj
    obtain ⟨old, hold, rfl⟩ := Option.map_eq_some_iff.1 hj
    exact ⟨old, hold, rfl⟩
  constructor
  · intro j node hj
    obtain ⟨old, hold, rfl⟩ := hnode hj
    have hnormal := h.normal hold
    split
    · exact hnormal
    · exact hnormal
  · intro p j
    rw [index_setDeps, h.index, node?_setDeps]
    constructor
    · rintro ⟨old, hold, hp⟩
      refine ⟨if i = j then { old with deps } else old, by rw [hold]; rfl, ?_⟩
      split
      · exact hp
      · exact hp
    · rintro ⟨node, hn, hp⟩
      obtain ⟨old, hold, rfl⟩ := Option.map_eq_some_iff.1 hn
      refine ⟨old, hold, ?_⟩
      split at hp
      · exact hp
      · exact hp
  · intro j node hj k hk
    obtain ⟨old, hold, rfl⟩ := hnode hj
    rw [size_setDeps]
    split at hk
    · exact hd k hk
    · exact h.deps_lt hold k hk

/-- Targets are found in the index, so they are nodes. -/
theorem WellIndexed.targets_lt (h : g.WellIndexed) {file : Path} {specs : List Import.Specifier}
    (hj : j ∈ g.targets file specs) : j < g.size := by
  unfold targets at hj
  obtain ⟨spec, -, hs⟩ := List.mem_filterMap.1 hj
  obtain ⟨node, hn, -⟩ := h.index.1 hs
  exact lt_size_of_node? hn

end SolVendor.ImportGraph
