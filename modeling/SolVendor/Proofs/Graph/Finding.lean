import SolVendor.Proofs.Graph.Induced
import SolVendor.Proofs.Graph.Query
/-!
# Graph — what queries find

A query is taken as a path first, and as a name only if no node is at this
path. `Means` and `IsRefused` say this of all nodes, without a search: the
first one which node a query means, the second one why it means none. In a
well-indexed graph each query has just one of these answers, and the search
gives it (`WellIndexed.find_eq_ok_iff`, `WellIndexed.find_eq_error_iff`).

So a spelling of the path of a node finds this node, however many nodes have
its name. A selection is the set of what its queries mean, and it fails as
the first query does that means no node. All of this is assembled in
`find_and_select`.
-/

namespace SolVendor.ImportGraph

variable {g : ImportGraph} {files : List DiscoveredFile} {opener : Opener} {i j : NodeId}
  {query : String} {queries queries' : List String} {e : Failure}

/-- The name of a node. -/
def name? (g : ImportGraph) (id : NodeId) : Option String :=
  (g.node? id).map SourceFile.name

/-- No node is at the path that the query is. -/
def IsNoPath (g : ImportGraph) (query : String) : Prop :=
  ∀ j, g.path? j ≠ some (Path.mk query).normalize

/-- The node that a query means: the one at this path, or else the only one with this name. -/
def Means (g : ImportGraph) (query : String) (i : NodeId) : Prop :=
  g.path? i = some (Path.mk query).normalize ∨ g.IsNoPath query ∧ ∀ j, g.name? j = some query ↔ j = i

/-- Why a query means no node. -/
inductive IsRefused (g : ImportGraph) (query : String) : Failure → Prop
  /-- No node has this name. -/
  | unknown : g.IsNoPath query → (∀ j, g.name? j ≠ some query) → IsRefused g query (.noMatch query)
  /-- Several have it, and they are told by their paths, in the order of their numbers. -/
  | ambiguous {ids : List NodeId} {paths : List Path} : g.IsNoPath query → ids.Pairwise (· < ·) →
      (∀ j, j ∈ ids ↔ g.name? j = some query) → 2 ≤ ids.length → ids.map g.path? = paths.map some →
      IsRefused g query (.ambiguous query paths)

/-! ## Nodes with a name -/

theorem name?_eq_some_iff {name : String} :
    g.name? i = some name ↔ ∃ node, g.node? i = some node ∧ node.name = name := by
  unfold name?
  rw [Option.map_eq_some_iff]

/-- The numbers of the nodes with a name. -/
theorem mem_map_named {name : String} : i ∈ (g.named name).map Prod.fst ↔ g.name? i = some name := by
  rw [List.mem_map, name?_eq_some_iff]
  constructor
  · rintro ⟨x, hx, rfl⟩
    exact ⟨x.2, mem_named.1 hx⟩
  · rintro ⟨node, hnode⟩
    exact ⟨(i, node), mem_named.2 hnode, rfl⟩

/-- They are in order. -/
theorem pairwise_map_named (g : ImportGraph) (name : String) :
    ((g.named name).map Prod.fst).Pairwise (· < ·) := by
  have hnumbers : (g.nodes.toList.zipIdx.map Prod.snd).Pairwise (· < ·) := by
    rw [List.zipIdx_map_snd]
    exact List.pairwise_lt_range'
  unfold named
  rw [List.map_map, List.pairwise_map]
  exact (List.pairwise_map.1 hnumbers).filter _

/-- Their paths. -/
theorem map_path?_named (g : ImportGraph) (name : String) :
    ((g.named name).map Prod.fst).map g.path? = ((g.named name).map fun x => x.2.path).map some := by
  rw [List.map_map, List.map_map]
  refine List.map_congr_left fun x hx => ?_
  exact path?_eq_some_iff.2 ⟨x.2, (mem_named.1 hx).1, rfl⟩

/-! ## One answer to each query -/

/-- A query means one node at most. -/
theorem Means.unique (hw : g.WellIndexed) (h : g.Means query i) (h' : g.Means query j) : i = j := by
  rcases h with hi | ⟨hno, hi⟩ <;> rcases h' with hj | ⟨hno', hj⟩
  · exact hw.path?_inj hi hj
  · exact absurd hi (hno' i)
  · exact absurd hj (hno j)
  · exact (hj i).1 ((hi i).2 rfl)

/-- A query that is refused means none. -/
theorem IsRefused.not_means (h : g.IsRefused query e) : ¬ g.Means query i := by
  rintro (hi | ⟨-, hi⟩)
  · cases h with
    | unknown hno _ => exact hno i hi
    | ambiguous hno _ _ _ _ => exact hno i hi
  · cases h with
    | unknown _ hnone => exact hnone i ((hi i).2 rfl)
    | @ambiguous ids _ _ hsorted hids htwo _ =>
      -- All of the numbers are the same one, but there are two of them.
      obtain ⟨a, b, rest, rfl⟩ : ∃ a b rest, ids = a :: b :: rest := by
        match ids, htwo with
        | a :: b :: rest, _ => exact ⟨a, b, rest, rfl⟩
      have ha := (hi a).1 ((hids a).1 List.mem_cons_self)
      have hb := (hi b).1 ((hids b).1 (List.mem_cons_of_mem a List.mem_cons_self))
      exact Nat.ne_of_lt ((List.pairwise_cons.1 hsorted).1 b List.mem_cons_self) (ha.trans hb.symm)

/-- There is one reason only. -/
theorem IsRefused.unique {e' : Failure} (h : g.IsRefused query e) (h' : g.IsRefused query e') : e = e' := by
  have hnone : ∀ {ids : List NodeId}, (∀ j, j ∈ ids ↔ g.name? j = some query) → 2 ≤ ids.length →
      ¬ ∀ j, g.name? j ≠ some query := by
    intro ids hids htwo hnone
    obtain ⟨a, ha⟩ := List.exists_mem_of_length_pos (show 0 < ids.length by omega)
    exact hnone a ((hids a).1 ha)
  cases h with
  | unknown _ hunknown =>
    cases h' with
    | unknown _ _ => rfl
    | ambiguous _ _ hids htwo _ => exact absurd hunknown (hnone hids htwo)
  | ambiguous _ hsorted hids htwo hpaths =>
    cases h' with
    | unknown _ hunknown => exact absurd hunknown (hnone hids htwo)
    | ambiguous _ hsorted' hids' _ hpaths' =>
      obtain rfl := hsorted.eq_of_mem_iff hsorted' fun j => (hids j).trans (hids' j).symm
      rw [(List.map_inj_right fun _ _ => Option.some.inj).1 (hpaths.symm.trans hpaths')]

/-- **The search answers**: it gives a node that is meant, or the reason why there is none. -/
theorem WellIndexed.find_cases (hw : g.WellIndexed) (query : String) :
    (∃ i, g.find query = .ok i ∧ g.Means query i) ∨ ∃ e, g.find query = .error e ∧ g.IsRefused query e := by
  unfold find
  cases hlookup : g.lookup? ⟨query⟩ with
  | some i => exact .inl ⟨i, rfl, .inl (path?_eq_some_iff.2 (hw.lookup?_eq_some_iff.1 hlookup))⟩
  | none =>
    have hno : g.IsNoPath query := by
      intro j hj
      rw [hw.lookup?_eq_some_iff.2 (path?_eq_some_iff.1 hj)] at hlookup
      cases hlookup
    have hids : ∀ j, j ∈ (g.named query).map Prod.fst ↔ g.name? j = some query := fun _ => mem_map_named
    have hsorted := pairwise_map_named g query
    have hpaths := map_path?_named g query
    match hnamed : g.named query with
    | [] =>
      refine .inr ⟨_, rfl, .unknown hno fun j hj => ?_⟩
      rw [← hids, hnamed] at hj
      cases hj
    | [(i, node)] =>
      refine .inl ⟨i, rfl, .inr ⟨hno, fun j => ?_⟩⟩
      rw [← hids, hnamed]
      exact List.mem_singleton
    | a :: b :: rest =>
      rw [hnamed] at hids hsorted hpaths
      exact .inr ⟨_, rfl, .ambiguous hno hsorted hids (by simp) hpaths⟩

/-- **A query finds the node that it means.** -/
theorem WellIndexed.find_eq_ok_iff (hw : g.WellIndexed) : g.find query = .ok i ↔ g.Means query i := by
  rcases hw.find_cases query with ⟨j, hfind, hmeans⟩ | ⟨e, hfind, hrefused⟩
  · rw [hfind]
    constructor
    · rintro ⟨⟩
      exact hmeans
    · exact fun h => congrArg Except.ok (hmeans.unique hw h)
  · rw [hfind]
    exact ⟨nofun, fun h => absurd h hrefused.not_means⟩

/-- **A query fails for the reason why it means no node.** -/
theorem WellIndexed.find_eq_error_iff (hw : g.WellIndexed) :
    g.find query = .error e ↔ g.IsRefused query e := by
  rcases hw.find_cases query with ⟨j, hfind, hmeans⟩ | ⟨e', hfind, hrefused⟩
  · rw [hfind]
    exact ⟨nofun, fun h => absurd hmeans h.not_means⟩
  · rw [hfind]
    constructor
    · rintro ⟨⟩
      exact hrefused
    · exact fun h => congrArg Except.error (hrefused.unique h)

/-! ## Selections -/

/-- **A selection succeeds if all of its queries do.** -/
theorem exists_select_iff :
    (∃ selected, g.select queries = .ok selected) ↔ ∀ query ∈ queries, ∃ i, g.find query = .ok i := by
  unfold select
  constructor
  · rintro ⟨selected, h⟩
    rcases hids : queries.mapM g.find with e | ids
    · rw [hids] at h
      cases h
    · exact exists_of_mapM_eq_ok hids
  · intro h
    choose! id hid using h
    rw [mapM_eq_ok hid]
    exact ⟨_, rfl⟩

/-- **A selection fails as the first of its queries that does.** -/
theorem select_eq_error_iff : g.select queries = .error e ↔ ∃ before query after,
    queries = before ++ query :: after ∧ (∀ q ∈ before, ∃ i, g.find q = .ok i) ∧
      g.find query = .error e := by
  rw [← mapM_eq_error_iff]
  unfold select
  rcases queries.mapM g.find with e' | ids
  · exact ⟨fun h => congrArg Except.error (Except.error.inj h), fun h => congrArg Except.error (Except.error.inj h)⟩
  · exact ⟨nofun, nofun⟩

/-- **Queries may be given in any order and any number of times.** -/
theorem select_eq_of_mem_iff {selected : NodeSet} (hmem : ∀ query, query ∈ queries ↔ query ∈ queries')
    (h : g.select queries = .ok selected) : g.select queries' = .ok selected := by
  obtain ⟨selected', h'⟩ := exists_select_iff.2 fun query hquery =>
    exists_select_iff.1 ⟨selected, h⟩ query ((hmem query).2 hquery)
  have heq : selected' = selected := Std.ExtTreeSet.ext_mem fun i => by
    rw [mem_of_select h', mem_of_select h]
    exact exists_congr fun query => and_congr_left fun _ => (hmem query).symm
  rw [h', heq]

/-- **What queries find in a graph that has been built.** A query means the node at its path, or else the only
node with its name; otherwise it fails, as no node has the name or as several have it, and these are told by
their paths in the order of their numbers. So each spelling of the path of a node finds this node, whatever the
names. A selection succeeds if all queries do; it is the set of what they mean, in whatever order and how often
they are given; and it fails as the first query that fails. -/
theorem find_and_select (hbuild : build files opener = .ok g) :
    (∀ query i, g.find query = .ok i ↔ g.Means query i) ∧
      (∀ query e, g.find query = .error e ↔ g.IsRefused query e) ∧
      (∀ query i p, g.path? i = some p → (Path.mk query).normalize = p → g.find query = .ok i) ∧
      (∀ i p, g.path? i = some p → p.IsUnicode → g.find p.text = .ok i) ∧
      ∀ queries, ((∃ selected, g.select queries = .ok selected) ↔ ∀ query ∈ queries, ∃ i, g.find query = .ok i) ∧
        (∀ selected, g.select queries = .ok selected →
          (∀ i, i ∈ selected ↔ ∃ query ∈ queries, g.find query = .ok i) ∧
          ∀ queries', (∀ query, query ∈ queries ↔ query ∈ queries') → g.select queries' = .ok selected) ∧
        ∀ e, g.select queries = .error e ↔ ∃ before query after, queries = before ++ query :: after ∧
          (∀ q ∈ before, ∃ i, g.find q = .ok i) ∧ g.find query = .error e := by
  have hw := wellIndexed_of_build hbuild
  refine ⟨fun _ _ => hw.find_eq_ok_iff, fun _ _ => hw.find_eq_error_iff, fun query i p hp hquery => ?_,
    fun i p hp hunicode => ?_, fun queries => ⟨exists_select_iff, fun selected hselect => ⟨?_, ?_⟩,
      fun e => select_eq_error_iff⟩⟩
  · exact hw.find_eq_ok_iff.2 (.inl (hquery ▸ hp))
  · obtain ⟨node, hn, rfl⟩ := path?_eq_some_iff.1 hp
    exact hw.find_of_node? hn hunicode
  · exact fun i => mem_of_select hselect
  · exact fun queries' hmem => select_eq_of_mem_iff hmem hselect

/-- Two files with one name, and a third one whose name is the path of the first. -/
def namesakes : List DiscoveredFile :=
  [⟨"A.sol", ⟨"src/A.sol"⟩⟩, ⟨"A.sol", ⟨"libs/A.sol"⟩⟩, ⟨"src/A.sol", ⟨"src/B.sol"⟩⟩]

/-- Among these files a path is preferred to a name, and a name alone is not enough. -/
theorem find_and_select_sample :
    ∃ g, build namesakes (fun _ => .ok ⟨[], none⟩) = .ok g ∧ g.Means "src/A.sol" 0 ∧ ¬ g.Means "src/A.sol" 2 ∧
      g.IsRefused "A.sol" (.ambiguous "A.sol" [⟨"src/A.sol"⟩, ⟨"libs/A.sol"⟩]) ∧
      g.find "src/./x/..//A.sol" = .ok 0 ∧
      (∀ selected, g.select ["src/B.sol", "src/A.sol", "src/B.sol"] = .ok selected →
        g.select ["src/A.sol", "src/B.sol"] = .ok selected) ∧
      g.select ["src/B.sol", "C.sol", "A.sol"] = .error (.noMatch "C.sol") := by
  have heval : (build namesakes fun _ => .ok ⟨[], none⟩).toOption.map (fun g =>
      (g.path? 0, ["src/A.sol", "src/B.sol", "A.sol", "C.sol"].map g.find)) =
        some (some ⟨"src/A.sol"⟩, [.ok 0, .ok 2, .error (.ambiguous "A.sol" [⟨"src/A.sol"⟩, ⟨"libs/A.sol"⟩]),
          .error (.noMatch "C.sol")]) := by decide +kernel
  rcases hg : build namesakes fun _ => .ok ⟨[], none⟩ with e | g
  · rw [hg] at heval
    cases heval
  rw [hg] at heval
  obtain ⟨hpath, hfind⟩ := Prod.mk.inj (Option.some.inj heval)
  simp only [List.map_cons, List.map_nil, List.cons.injEq, and_true] at hfind
  obtain ⟨hA, hB, hname, hC⟩ := hfind
  obtain ⟨hmeans, hrefused, hspelling, -, hselect⟩ := find_and_select hg
  refine ⟨g, rfl, (hmeans _ _).1 hA, fun h => ?_, (hrefused _ _).1 hname,
    hspelling _ _ _ hpath (by decide +kernel), fun selected h => ?_, ?_⟩
  · rw [← hmeans, hA] at h
    cases h
  · exact ((hselect _).2.1 selected h).2 _ fun query => by simp; tauto
  · exact ((hselect _).2.2 _).2 ⟨["src/B.sol"], "C.sol", ["A.sol"], rfl, by simpa using ⟨2, hB⟩, hC⟩

end SolVendor.ImportGraph
