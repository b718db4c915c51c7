import Mathlib.Data.List.Induction
import Mathlib.Data.List.Sort
import SolVendor.Proofs.Graph.Build
/-!
# Graph — the part of a graph that some files make up

The numbers of nodes mean nothing outside their graph. A record tells of a
node without them: its name, its path, and the paths of the nodes that it
imports (`record?`). So two graphs can be compared.

If some nodes import each other only, then the graph of their files alone
has the records that these nodes have, in the same order
(`IsGraphOf.record?_induced`). What else was in the graph, and how the
nodes were numbered, makes no difference.
-/

namespace SolVendor.ImportGraph

variable {g g' : ImportGraph} {files : List DiscoveredFile} {opener opener' : Opener}
  {node : SourceFile} {i : NodeId} {p : Path} {P : Path → Prop} [DecidablePred P]

/-- The path of a node. -/
def path? (g : ImportGraph) (id : NodeId) : Option Path :=
  (g.node? id).map SourceFile.path

/-- The file of a node. -/
def file? (g : ImportGraph) (id : NodeId) : Option DiscoveredFile :=
  (g.node? id).map fun node => ⟨node.name, node.path⟩

/-- What a graph knows of a node, without numbers: its name and path, and the paths of the nodes that
it imports, in order and as often as they occur. -/
structure Record where
  name : String
  path : Path
  deps : List (Option Path)
deriving DecidableEq, Repr

/-- The record of a node. -/
def record? (g : ImportGraph) (id : NodeId) : Option Record :=
  (g.node? id).map fun node => ⟨node.name, node.path, node.deps.map g.path?⟩

theorem path?_eq_some_iff :
    g.path? i = some p ↔ ∃ node, g.node? i = some node ∧ node.path = p := by
  unfold path?
  rw [Option.map_eq_some_iff]

/-- If nodes are told apart by their paths, numbers are. -/
theorem path?_inj {j : NodeId} (hinj : ∀ {i j : NodeId} {node m : SourceFile}, g.node? i = some node →
    g.node? j = some m → node.path = m.path → i = j) (hi : g.path? i = some p) (hj : g.path? j = some p) :
    i = j := by
  obtain ⟨node, hn, rfl⟩ := path?_eq_some_iff.1 hi
  obtain ⟨m, hm, hp⟩ := path?_eq_some_iff.1 hj
  exact hinj hn hm hp.symm

theorem IsGraphOf.path?_inj (h : g.IsGraphOf files opener) {j : NodeId} (hi : g.path? i = some p)
    (hj : g.path? j = some p) : i = j :=
  ImportGraph.path?_inj h.path_inj hi hj

theorem WellIndexed.path?_inj (hw : g.WellIndexed) {j : NodeId} (hi : g.path? i = some p)
    (hj : g.path? j = some p) : i = j :=
  ImportGraph.path?_inj hw.path_inj hi hj

/-- The files of the nodes are the distinct files. -/
theorem IsGraphOf.file? (h : g.IsGraphOf files opener) (i : NodeId) :
    g.file? i = (distinctFiles files)[i]? := by
  unfold ImportGraph.file? node?
  rw [← h.nodes, List.getElem?_map, Array.getElem?_toList]

theorem IsGraphOf.size (h : g.IsGraphOf files opener) : g.size = (distinctFiles files).length := by
  unfold ImportGraph.size
  rw [← h.nodes, List.length_map, Array.length_toList]

/-- A path belongs to a node if it is that of a distinct file. -/
theorem IsGraphOf.exists_path?_iff (h : g.IsGraphOf files opener) :
    (∃ i, g.path? i = some p) ↔ ∃ file ∈ distinctFiles files, file.path = p := by
  have hfile : ∀ i, g.path? i = (g.file? i).map DiscoveredFile.path := by
    intro i
    unfold path? ImportGraph.file?
    rw [Option.map_map]
    rfl
  constructor
  · rintro ⟨i, hi⟩
    rw [hfile, h.file?, Option.map_eq_some_iff] at hi
    obtain ⟨file, hmem, hp⟩ := hi
    exact ⟨file, List.mem_of_getElem? hmem, hp⟩
  · rintro ⟨file, hmem, hp⟩
    obtain ⟨i, hi⟩ := List.mem_iff_getElem?.1 hmem
    refine ⟨i, ?_⟩
    rw [hfile, h.file?, hi, Option.map_some, hp]

/-! ## What the edges of a node come from -/

/-- The places that a file asks for, if it can be read. -/
def requested (opener : Opener) (file : Path) : List Path :=
  match opener file with
  | .ok reader =>
    (Import.specifiers reader.bytes).map fun spec => Import.resolve file spec.request
  | .error _ => []

theorem requested_of_reads {bytes : List UInt8} (h : opener.Reads p bytes) :
    requested opener p =
      (Import.specifiers bytes).map fun spec => Import.resolve p spec.request := by
  unfold requested
  rw [show opener p = .ok ⟨bytes, none⟩ from h]

/-- The record that the node of a file has in a graph with nodes at the given places. -/
def recordOf (opener : Opener) (P : Path → Prop) [DecidablePred P] (file : DiscoveredFile) : Record :=
  ⟨file.name, file.path, ((requested opener file.path).filter fun p => P p).map some⟩

theorem exists_path?_of_idAt? (h : g.idAt? p = some i) : g.path? i = some p := by
  obtain ⟨node, hn, hp⟩ := exists_node?_of_idAt? h
  exact path?_eq_some_iff.2 ⟨node, hn, hp⟩

theorem exists_idAt?_of_path? (h : g.path? i = some p) : ∃ j, g.idAt? p = some j := by
  obtain ⟨node, hn, hp⟩ := path?_eq_some_iff.1 h
  unfold idAt?
  rw [← Option.isSome_iff_exists, List.findIdx?_isSome, List.any_eq_true]
  exact ⟨node, by simpa using mem_nodes_of_node? hn, by simpa using hp⟩

/-- **The edges of a node lead to the requested places that nodes have.** It is enough to know these
places among the requested ones. -/
theorem IsGraphOf.deps_map_path? (h : g.IsGraphOf files opener) (hn : g.node? i = some node)
    (hin : ∀ j ∈ node.deps, ∀ p, g.path? j = some p → P p) (hP : ∀ p, P p → ∃ j, g.path? j = some p) :
    node.deps.map g.path? = ((requested opener node.path).filter fun p => P p).map some := by
  obtain ⟨bytes, hr, hdeps⟩ := h.deps hn
  rw [hdeps] at hin ⊢
  rw [requested_of_reads hr]
  -- One request after the other: it leads to a node, or to no place that nodes have.
  generalize Import.specifiers bytes = specs at hin ⊢
  induction specs with
  | nil => rfl
  | cons spec specs ih =>
    rw [List.filterMap_cons] at hin ⊢
    rw [List.map_cons, List.filter_cons]
    cases hid : g.idAt? (Import.resolve node.path spec.request) with
    | none =>
      rw [hid] at hin
      have hout : ¬ P (Import.resolve node.path spec.request) := by
        intro hp
        obtain ⟨j, hj⟩ := hP _ hp
        obtain ⟨k, hk⟩ := exists_idAt?_of_path? hj
        rw [hid] at hk
        cases hk
      rw [if_neg (by simpa using hout)]
      exact ih hin
    | some j =>
      rw [hid] at hin
      have hj := exists_path?_of_idAt? hid
      rw [if_pos (by simpa using hin j List.mem_cons_self _ hj), List.map_cons, List.map_cons, hj]
      rw [ih fun k hk => hin k (List.mem_cons_of_mem j hk)]

/-- The record of a node, if its edges lead to the given places only. -/
theorem IsGraphOf.record?_eq (h : g.IsGraphOf files opener)
    (hin : ∀ j ∈ g.deps i, ∀ p, g.path? j = some p → P p) (hP : ∀ p, P p → ∃ j, g.path? j = some p) :
    g.record? i = (g.file? i).map (recordOf opener P) := by
  unfold record? ImportGraph.file?
  cases hn : g.node? i with
  | none => rfl
  | some node =>
    have hdeps : g.deps i = node.deps := by
      unfold ImportGraph.deps
      rw [hn]
      rfl
    rw [Option.map_some, Option.map_some, Option.map_some,
      h.deps_map_path? hn (hdeps ▸ hin) hP]
    rfl

/-! ## Some nodes and their files -/

/-- The entries of a list with a property, by their numbers. -/
theorem map_getElem?_filter {α : Type} (P : α → Bool) (l : List α) :
    ((List.range l.length).filter fun i => l[i]?.any P).map (fun i => l[i]?) =
      (l.filter P).map some := by
  -- From the end, as the numbers of the entries before it do not change.
  induction l using List.reverseRecOn with
  | nil => rfl
  | append_singleton l x ih =>
    have hold : ∀ i ∈ List.range l.length, (l ++ [x])[i]? = l[i]? := fun i hi =>
      List.getElem?_append_left (List.mem_range.1 hi)
    have hnew : (l ++ [x])[l.length]? = some x := List.getElem?_concat_length
    have hlen : (l ++ [x]).length = l.length + 1 := by simp
    have hfilter : (List.range l.length).filter (fun i => (l ++ [x])[i]?.any P) =
        (List.range l.length).filter fun i => l[i]?.any P :=
      List.filter_congr fun i hi => by rw [hold i hi]
    have hmap : ((List.range l.length).filter fun i => l[i]?.any P).map (fun i => (l ++ [x])[i]?) =
        ((List.range l.length).filter fun i => l[i]?.any P).map fun i => l[i]? :=
      List.map_congr_left fun i hi => hold i (List.mem_filter.1 hi).1
    rw [hlen, List.range_succ, List.filter_append, List.map_append, hfilter, hmap, ih,
      List.filter_append, List.map_append, List.filter_singleton, List.filter_singleton, hnew,
      Option.any_some]
    congr 1
    by_cases hx : P x = true
    · simp [hx]
    · simp [hx]

theorem pairwise_lt_toList (ids : NodeSet) : ids.toList.Pairwise (· < ·) :=
  Std.ExtTreeSet.ordered_toList.imp fun hab => Nat.compare_eq_lt.1 hab

theorem nodup_toList (ids : NodeSet) : ids.toList.Nodup :=
  (pairwise_lt_toList ids).imp Nat.ne_of_lt

/-- **Some nodes, listed in order, have the files at their paths.** -/
theorem IsGraphOf.map_file? (h : g.IsGraphOf files opener) {ids : NodeSet}
    (hP : ∀ {i p}, g.path? i = some p → (P p ↔ i ∈ ids)) (hids : ∀ i ∈ ids, i < g.size) :
    ids.toList.map g.file? = ((distinctFiles files).filter fun file => P file.path).map some := by
  -- Both lists are in order, so it is enough that they have the same members.
  have hlist : ids.toList = (List.range (distinctFiles files).length).filter fun i =>
      (distinctFiles files)[i]?.any fun file => P file.path := by
    refine (pairwise_lt_toList ids).eq_of_mem_iff (List.pairwise_lt_range.filter _) fun i => ?_
    rw [Std.ExtTreeSet.mem_toList, List.mem_filter, List.mem_range, ← h.size, ← h.file?]
    have hpath : ∀ file, g.file? i = some file → (P file.path ↔ i ∈ ids) := by
      intro file hf
      unfold ImportGraph.file? at hf
      obtain ⟨node, hn, rfl⟩ := Option.map_eq_some_iff.1 hf
      exact hP (path?_eq_some_iff.2 ⟨node, hn, rfl⟩)
    constructor
    · intro hi
      obtain ⟨node, hn⟩ := exists_node?_of_lt (hids i hi)
      have hf : g.file? i = some ⟨node.name, node.path⟩ := by
        unfold ImportGraph.file?
        rw [hn, Option.map_some]
      rw [hf]
      exact ⟨hids i hi, by simpa using (hpath _ hf).2 hi⟩
    · rintro ⟨hlt, hany⟩
      rw [Option.any_eq_true] at hany
      obtain ⟨file, hf, hp⟩ := hany
      exact (hpath file hf).1 (by simpa using hp)
  rw [hlist, ← map_getElem?_filter]
  exact List.map_congr_left fun i _ => h.file? i

/-- All nodes have the distinct files. -/
theorem IsGraphOf.map_file?_range (h : g.IsGraphOf files opener) :
    (List.range g.size).map g.file? = (distinctFiles files).map some := by
  refine List.ext_getElem (by simp [h.size]) fun i hi _ => ?_
  have hlt : i < (distinctFiles files).length := by
    rw [List.length_map, List.length_range, h.size] at hi
    exact hi
  rw [List.getElem_map, List.getElem_map, List.getElem_range, h.file?, List.getElem?_eq_getElem hlt]

/-- **The graph of the files of some nodes that import each other only** has the records that these
nodes have in the whole graph, if its files are those at the same places and ask for the same. -/
theorem IsGraphOf.record?_induced {files' : List DiscoveredFile} (h : g.IsGraphOf files opener)
    (h' : g'.IsGraphOf files' opener') {ids : NodeSet} (hids : ∀ i ∈ ids, i < g.size)
    (hclosed : ∀ i ∈ ids, ∀ j ∈ g.deps i, j ∈ ids)
    (hP : ∀ {i p}, g.path? i = some p → (P p ↔ i ∈ ids)) (hPnode : ∀ p, P p → ∃ i, g.path? i = some p)
    (hfiles : distinctFiles files' = (distinctFiles files).filter fun file => P file.path)
    (hreq : ∀ p, P p → requested opener' p = requested opener p) :
    (List.range g'.size).map g'.record? = ids.toList.map g.record? := by
  have hP' : ∀ p, P p ↔ ∃ i, g'.path? i = some p := by
    intro p
    rw [h'.exists_path?_iff, hfiles]
    constructor
    · intro hp
      obtain ⟨file, hmem, rfl⟩ := h.exists_path?_iff.1 (hPnode p hp)
      exact ⟨file, List.mem_filter.2 ⟨hmem, by simpa using hp⟩, rfl⟩
    · rintro ⟨file, hmem, rfl⟩
      simpa using (List.mem_filter.1 hmem).2
  -- On either side the record of a node is made from its file and what that asks for.
  have hold : ids.toList.map g.record? =
      (((distinctFiles files).filter fun file => P file.path).map (recordOf opener P)).map some := by
    have hrecord : ids.toList.map g.record? =
        (ids.toList.map g.file?).map (Option.map (recordOf opener P)) := by
      rw [List.map_map]
      refine List.map_congr_left fun i hi => ?_
      rw [Std.ExtTreeSet.mem_toList] at hi
      exact h.record?_eq (fun j hj p hp => (hP hp).2 (hclosed i hi j hj)) hPnode
    rw [hrecord, h.map_file? hP hids, List.map_map, List.map_map]
    rfl
  have hnew : (List.range g'.size).map g'.record? =
      (((distinctFiles files').map (recordOf opener' P))).map some := by
    have hrecord : (List.range g'.size).map g'.record? =
        ((List.range g'.size).map g'.file?).map (Option.map (recordOf opener' P)) := by
      rw [List.map_map]
      refine List.map_congr_left fun i _ => ?_
      exact h'.record?_eq (fun j _ p hp => (hP' p).2 ⟨j, hp⟩) fun p hp => (hP' p).1 hp
    rw [hrecord, h'.map_file?_range, List.map_map, List.map_map]
    rfl
  rw [hold, hnew, hfiles]
  congr 1
  refine List.map_congr_left fun file hf => ?_
  have hp : P file.path := by simpa using (List.mem_filter.1 hf).2
  unfold recordOf
  rw [hreq _ hp]

end SolVendor.ImportGraph
