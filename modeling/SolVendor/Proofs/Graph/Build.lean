import SolVendor.Proofs.Graph.Index
/-!
# Graph — what building gives

The import graph of some files is described without its index: its nodes
are the files at the first occurrence of each path (`distinctFiles`), and
the edges of a node are what its requests lead to, found by looking
through the nodes (`IsGraphOf`). Building gives that graph when every file
can be read, and otherwise the failure of the first node whose file
cannot (`build_characterisation`).

The second pass is followed node by node: `ScannedTo` holds after the
first `k` of them, and `ScannedTo.step` carries it over the next one.
-/

namespace SolVendor

namespace Opener

/-- The file at a path can be opened and read to its end, and these are its bytes. -/
def Reads (opener : Opener) (p : Path) (bytes : List UInt8) : Prop :=
  opener p = .ok ⟨bytes, none⟩

/-- The file at a path cannot be opened, or reading it breaks off. -/
inductive Fails (opener : Opener) (p : Path) : Failure → Prop
  | opening {e : Failure} : opener p = .error e → Fails opener p e
  | reading {bytes : List UInt8} {cause : Failure} :
      opener p = .ok ⟨bytes, some cause⟩ → Fails opener p (.during (.readFile p) cause)

variable {opener : Opener} {p : Path} {e : Failure}

/-- A file can be read, or there is a failure. -/
theorem reads_or_fails (opener : Opener) (p : Path) :
    (∃ bytes, opener.Reads p bytes) ∨ ∃ e, opener.Fails p e := by
  cases h : opener p with
  | error e => exact .inr ⟨e, .opening h⟩
  | ok reader =>
    obtain ⟨bytes, failure⟩ := reader
    cases failure with
    | none => exact .inl ⟨bytes, h⟩
    | some cause => exact .inr ⟨_, .reading h⟩

end Opener

namespace ImportGraph

/-- The files at the normal forms of their paths. A file whose path has occurred before is left
out. -/
def distinctFiles : List DiscoveredFile → List DiscoveredFile
  | [] => []
  | file :: files =>
    ⟨file.name, file.path.normalize⟩ ::
      (distinctFiles files).filter fun later => later.path ≠ file.path.normalize

/-- The graph has a node for each distinct file, in order. The edges of a node lead to the nodes at
the places that its file asks for, in the order of the requests; what leads to no node is left out.
-/
structure IsGraphOf (g : ImportGraph) (files : List DiscoveredFile) (opener : Opener) : Prop where
  nodes : g.nodes.toList.map (fun node => ⟨node.name, node.path⟩) = distinctFiles files
  path_inj : ∀ {i j : NodeId} {node m : SourceFile}, g.node? i = some node → g.node? j = some m →
    node.path = m.path → i = j
  deps : ∀ {i : NodeId} {node : SourceFile}, g.node? i = some node →
    ∃ bytes, opener.Reads node.path bytes ∧
      node.deps = (Import.specifiers bytes).filterMap fun spec =>
        g.idAt? (Import.resolve node.path spec.request)
  deps_lt : ∀ {i : NodeId} {node : SourceFile}, g.node? i = some node →
    ∀ j ∈ node.deps, j < g.size

/-! ## The first pass -/

/-- The paths of the distinct files are the normal forms of the given ones. -/
theorem exists_mem_distinctFiles {files : List DiscoveredFile} {p : Path} :
    (∃ file ∈ distinctFiles files, file.path = p) ↔ ∃ file ∈ files, file.path.normalize = p := by
  induction files with
  | nil => simp [distinctFiles]
  | cons file files ih =>
    unfold distinctFiles
    by_cases hp : file.path.normalize = p
    · refine ⟨fun _ => ⟨file, List.mem_cons_self, hp⟩, fun _ => ⟨_, List.mem_cons_self, hp⟩⟩
    · constructor
      · rintro ⟨later, hl, hlp⟩
        rcases List.mem_cons.1 hl with rfl | hl
        · exact absurd hlp hp
        · obtain ⟨f, hf, hfp⟩ := ih.1 ⟨later, (List.mem_filter.1 hl).1, hlp⟩
          exact ⟨f, List.mem_cons_of_mem _ hf, hfp⟩
      · rintro ⟨f, hf, hfp⟩
        rcases List.mem_cons.1 hf with rfl | hf
        · exact absurd hfp hp
        · obtain ⟨later, hl, hlp⟩ := ih.2 ⟨f, hf, hfp⟩
          refine ⟨later, List.mem_cons_of_mem _ (List.mem_filter.2 ⟨hl, ?_⟩), hlp⟩
          simpa [hlp] using Ne.symm hp

/-- The files are at different places, given by normal forms. -/
structure AreDistinct (files : List DiscoveredFile) : Prop where
  normal : ∀ file ∈ files, file.path.normalize = file.path
  apart : files.Pairwise fun a b => a.path ≠ b.path

theorem AreDistinct.filter {files : List DiscoveredFile} (h : AreDistinct files)
    (P : DiscoveredFile → Bool) : AreDistinct (files.filter P) where
  normal file hf := h.normal file (List.mem_filter.1 hf).1
  apart := h.apart.filter P

/-- Such files are all kept. -/
theorem AreDistinct.distinctFiles_eq {files : List DiscoveredFile} (h : AreDistinct files) :
    distinctFiles files = files := by
  obtain ⟨hnormal, hpaths⟩ := h
  induction files with
  | nil => rfl
  | cons file files ih =>
    rw [List.pairwise_cons] at hpaths
    obtain ⟨hfile, hpaths⟩ := hpaths
    unfold distinctFiles
    rw [ih (fun f hf => hnormal f (List.mem_cons_of_mem file hf)) hpaths,
      hnormal file List.mem_cons_self]
    congr 1
    refine List.filter_eq_self.2 fun later hlater => ?_
    simpa using (hfile later hlater).symm

/-- Adding files appends those of the distinct ones that are new. -/
theorem nodes_foldl_add (files : List DiscoveredFile) {g : ImportGraph} (h : g.WellIndexed) :
    (files.foldl add g).nodes.toList = g.nodes.toList ++
      ((distinctFiles files).filter fun file => !g.index.contains file.path).map
        fun file => ⟨file.name, file.path, []⟩ := by
  -- Over all graphs: what is new depends on the files that have been added already.
  induction files generalizing g with
  | nil => simp [distinctFiles]
  | cons file files ih =>
    rw [List.foldl_cons, ih (h.add file), distinctFiles]
    by_cases hc : g.index.contains file.path.normalize = true
    · have hadd : g.add file = g := by
        unfold add
        exact if_pos hc
      have hsame : ((distinctFiles files).filter fun later => later.path ≠ file.path.normalize).filter
          (fun later => !g.index.contains later.path) =
            (distinctFiles files).filter fun later => !g.index.contains later.path := by
        rw [List.filter_filter]
        refine List.filter_congr fun later _ => ?_
        by_cases hl : later.path = file.path.normalize
        · simp [hl, hc]
        · simp [hl]
      rw [hadd, List.filter_cons_of_neg (by simp [hc]), hsame]
    · have hadd : g.add file =
          ⟨g.nodes.push ⟨file.name, file.path.normalize, []⟩,
            g.index.insert file.path.normalize g.size⟩ := by
        unfold add
        exact if_neg hc
      have hrest : ((distinctFiles files).filter fun later => later.path ≠ file.path.normalize).filter
          (fun later => !g.index.contains later.path) =
            (distinctFiles files).filter fun later => !(g.add file).index.contains later.path := by
        rw [List.filter_filter, hadd]
        refine List.filter_congr fun later _ => ?_
        rw [Std.ExtTreeMap.contains_insert]
        by_cases hl : later.path = file.path.normalize
        · simp [hl]
        · have hne : (compare file.path.normalize later.path == .eq) = false := by
            rw [beq_eq_false_iff_ne]
            exact fun heq => hl (Std.LawfulEqOrd.compare_eq_iff_eq.1 heq).symm
          simp [hl, hne]
      rw [List.filter_cons_of_pos (by simp [hc]), hrest, hadd]
      simp

/-- **The first pass makes a node of each distinct file.** -/
theorem nodes_ofFiles (files : List DiscoveredFile) :
    (ofFiles files).nodes.toList =
      (distinctFiles files).map fun file => ⟨file.name, file.path, []⟩ := by
  have hnew : (distinctFiles files).filter (fun file => !empty.index.contains file.path) =
      distinctFiles files :=
    List.filter_eq_self.2 fun file _ => by simp [empty]
  have h := nodes_foldl_add files wellIndexed_empty
  rw [hnew] at h
  exact h

theorem size_ofFiles (files : List DiscoveredFile) :
    (ofFiles files).size = (distinctFiles files).length := by
  unfold size
  rw [← Array.length_toList, nodes_ofFiles, List.length_map]

theorem node?_ofFiles (files : List DiscoveredFile) (i : Nat) :
    (ofFiles files).node? i =
      (distinctFiles files)[i]?.map fun file => ⟨file.name, file.path, []⟩ := by
  unfold node?
  rw [← Array.getElem?_toList, nodes_ofFiles, List.getElem?_map]

/-! ## The second pass -/

variable {opener : Opener} {g₀ g : ImportGraph} {i k : Nat} {node : SourceFile}

/-- Where the second pass stands when it has come to node `k`: all nodes are where they were, those
before `k` have their edges, and those from `k` on are as they were. -/
structure ScannedTo (opener : Opener) (g₀ : ImportGraph) (k : Nat) (g : ImportGraph) : Prop where
  index : g.index = g₀.index
  size : g.size = g₀.size
  place : ∀ i, (g.node? i).map (fun node => (⟨node.name, node.path⟩ : DiscoveredFile)) =
    (g₀.node? i).map fun node => ⟨node.name, node.path⟩
  done : ∀ {i node}, i < k → g.node? i = some node →
    ∃ bytes, opener.Reads node.path bytes ∧ node.deps = g₀.targets node.path (Import.specifiers bytes)
  rest : ∀ {i}, k ≤ i → g.node? i = g₀.node? i

theorem scannedTo_zero (opener : Opener) (g₀ : ImportGraph) : ScannedTo opener g₀ 0 g₀ where
  index := rfl
  size := rfl
  place _ := rfl
  done h := absurd h (Nat.not_lt_zero _)
  rest _ := rfl

/-- **One node of the second pass.** -/
theorem ScannedTo.step {bytes : List UInt8} (h : ScannedTo opener g₀ k g)
    (hn : g₀.node? k = some node) (hr : opener.Reads node.path bytes) :
    ScannedTo opener g₀ (k + 1)
      (g.setDeps k (g₀.targets node.path (Import.specifiers bytes))) where
  index := h.index
  size := by rw [size_setDeps, h.size]
  place i := by
    rw [node?_setDeps, ← h.place i, Option.map_map]
    congr 1
    funext m
    simp only [Function.comp_apply]
    split <;> rfl
  done {i m} hi hm := by
    rw [node?_setDeps] at hm
    obtain ⟨old, hold, rfl⟩ := Option.map_eq_some_iff.1 hm
    by_cases hik : k = i
    · subst hik
      rw [h.rest (Nat.le_refl k), hn] at hold
      obtain rfl := Option.some.inj hold
      rw [if_pos rfl]
      exact ⟨bytes, hr, rfl⟩
    · rw [if_neg hik]
      exact h.done (by omega) hold
  rest {i} hi := by
    rw [node?_setDeps, h.rest (by omega)]
    have hik : k ≠ i := by omega
    simp [hik]

theorem scanNode_of_reads {bytes : List UInt8} (hn : g.node? i = some node)
    (hr : opener.Reads node.path bytes) :
    scanNode opener g i = .ok (g.setDeps i (g.targets node.path (Import.specifiers bytes))) := by
  unfold scanNode
  unfold Opener.Reads at hr
  rw [hn]
  simp only [hr]
  rfl

theorem scanNode_of_fails {e : Failure} (hn : g.node? i = some node)
    (hf : opener.Fails node.path e) : scanNode opener g i = .error e := by
  unfold scanNode
  rw [hn]
  cases hf with
  | opening h =>
    simp only [h]
    rfl
  | reading h =>
    simp only [h]
    rfl

/-- **As far as all files can be read, the second pass goes on.** -/
theorem exists_scannedTo (opener : Opener) (hk : k ≤ g₀.size)
    (hr : ∀ i < k, ∀ node, g₀.node? i = some node → ∃ bytes, opener.Reads node.path bytes) :
    ∃ g, (List.range k).foldlM (scanNode opener) g₀ = .ok g ∧ ScannedTo opener g₀ k g := by
  induction k with
  | zero => exact ⟨g₀, rfl, scannedTo_zero opener g₀⟩
  | succ k ih =>
    obtain ⟨g, hg, hscan⟩ := ih (by omega) fun i hi => hr i (by omega)
    obtain ⟨node, hn⟩ := exists_node?_of_lt (g := g₀) (i := k) (by omega)
    obtain ⟨bytes, hbytes⟩ := hr k (by omega) node hn
    have hn' : g.node? k = some node := by rw [hscan.rest (Nat.le_refl k), hn]
    -- Requests are looked up in the index, and that has not changed.
    have htargets : g.targets = g₀.targets := by
      unfold targets
      rw [hscan.index]
    refine ⟨_, ?_, hscan.step hn hbytes⟩
    rw [List.range_succ, List.foldlM_append, hg]
    simp only [List.foldlM_cons, List.foldlM_nil, bind, Except.bind]
    rw [scanNode_of_reads hn' hbytes, htargets]
    rfl

/-- A pass over all nodes gives the graph of the files. -/
theorem ScannedTo.isGraphOf {files : List DiscoveredFile}
    (h : ScannedTo opener (ofFiles files) (ofFiles files).size g) : g.IsGraphOf files opener := by
  have hwell := wellIndexed_ofFiles files
  have hplace : ∀ {i node}, g.node? i = some node →
      ∃ old, (ofFiles files).node? i = some old ∧ old.path = node.path := by
    intro i node hn
    have hi := h.place i
    rw [hn] at hi
    obtain ⟨old, hold, heq⟩ := Option.map_eq_some_iff.1 hi.symm
    exact ⟨old, hold, congrArg DiscoveredFile.path heq⟩
  -- The index of the first pass finds what a search through the nodes finds.
  have hid : ∀ p, (ofFiles files).index[p]? = g.idAt? p := by
    intro p
    rw [hwell.getElem?_index]
    have hpaths : (ofFiles files).nodes.toList.map SourceFile.path =
        g.nodes.toList.map SourceFile.path := by
      refine List.ext_getElem? fun i => ?_
      have hi := congrArg (Option.map DiscoveredFile.path) (h.place i)
      simpa [node?, Function.comp_def] using hi.symm
    have hsearch : ∀ g : ImportGraph,
        g.idAt? p = (g.nodes.toList.map SourceFile.path).findIdx? (· = p) := by
      intro g
      rw [List.findIdx?_map]
      rfl
    rw [hsearch, hsearch, hpaths]
  constructor
  · refine List.ext_getElem? fun i => ?_
    have hi := h.place i
    rw [node?_ofFiles, Option.map_map] at hi
    simpa [node?, Function.comp_def] using hi
  · intro i j node m hi hj hp
    obtain ⟨old, hold, hop⟩ := hplace hi
    obtain ⟨old', hold', hop'⟩ := hplace hj
    exact hwell.path_inj hold hold' (by rw [hop, hop', hp])
  · intro i node hn
    have hlt : i < (ofFiles files).size := h.size ▸ lt_size_of_node? hn
    obtain ⟨bytes, hr, hd⟩ := h.done hlt hn
    refine ⟨bytes, hr, hd.trans ?_⟩
    unfold targets
    simp only [hid]
  · intro i node hn j hj
    have hlt : i < (ofFiles files).size := h.size ▸ lt_size_of_node? hn
    obtain ⟨bytes, -, hd⟩ := h.done hlt hn
    rw [hd] at hj
    rw [h.size]
    exact hwell.targets_lt hj

/-! ## Both passes -/

/-- If all files can be read, a graph is built. -/
theorem exists_build_of_reads {files : List DiscoveredFile}
    (hr : ∀ file ∈ files, ∃ bytes, opener.Reads file.path.normalize bytes) :
    ∃ g, build files opener = .ok g := by
  obtain ⟨g, hg, -⟩ := exists_scannedTo opener (Nat.le_refl (ofFiles files).size) (by
    intro i _ node hn
    rw [node?_ofFiles] at hn
    obtain ⟨file, hf, rfl⟩ := Option.map_eq_some_iff.1 hn
    obtain ⟨f, hmem, hp⟩ := exists_mem_distinctFiles.1 ⟨file, List.mem_of_getElem? hf, rfl⟩
    rw [← hp]
    exact hr f hmem)
  exact ⟨g, hg⟩

/-- The first node whose file cannot be read ends the build with its failure. -/
theorem build_of_fails {files pre post : List DiscoveredFile} {file : DiscoveredFile} {e : Failure}
    (hsplit : distinctFiles files = pre ++ file :: post)
    (hpre : ∀ f ∈ pre, ∃ bytes, opener.Reads f.path bytes) (hf : opener.Fails file.path e) :
    build files opener = .error e := by
  have hsize : (ofFiles files).size = pre.length + (post.length + 1) := by
    rw [size_ofFiles, hsplit, List.length_append, List.length_cons]
  obtain ⟨g, hg, hscan⟩ := exists_scannedTo opener
    (show pre.length ≤ (ofFiles files).size by omega) (by
      intro i hi node hn
      rw [node?_ofFiles, hsplit, List.getElem?_append_left hi] at hn
      obtain ⟨f, hf, rfl⟩ := Option.map_eq_some_iff.1 hn
      exact hpre f (List.mem_of_getElem? hf))
  have hn : g.node? pre.length = some ⟨file.name, file.path, []⟩ := by
    rw [hscan.rest (Nat.le_refl _), node?_ofFiles, hsplit]
    simp
  unfold build
  simp only
  rw [hsize, List.range_add, List.foldlM_append, hg, List.range_succ_eq_map]
  simp only [List.map_cons, Nat.add_zero, List.foldlM_cons, bind, Except.bind]
  rw [scanNode_of_fails hn hf]

/-- Among some files there is a first that cannot be read, or all can be. -/
theorem reads_all_or_first_fails (opener : Opener) (files : List DiscoveredFile) :
    (∀ f ∈ files, ∃ bytes, opener.Reads f.path bytes) ∨
      ∃ pre file post e, files = pre ++ file :: post ∧
        (∀ f ∈ pre, ∃ bytes, opener.Reads f.path bytes) ∧ opener.Fails file.path e := by
  induction files with
  | nil => exact .inl fun f hf => absurd hf List.not_mem_nil
  | cons file files ih =>
    rcases opener.reads_or_fails file.path with hr | ⟨e, hf⟩
    · rcases ih with hall | ⟨pre, f, post, e, rfl, hpre, hf⟩
      · exact .inl (List.forall_mem_cons.2 ⟨hr, hall⟩)
      · exact .inr ⟨file :: pre, f, post, e, rfl, List.forall_mem_cons.2 ⟨hr, hpre⟩, hf⟩
    · exact .inr ⟨[], file, files, e, rfl, fun f hf => absurd hf List.not_mem_nil, hf⟩

theorem reads_distinctFiles_iff {files : List DiscoveredFile} :
    (∀ f ∈ distinctFiles files, ∃ bytes, opener.Reads f.path bytes) ↔
      ∀ f ∈ files, ∃ bytes, opener.Reads f.path.normalize bytes := by
  constructor
  · intro h f hf
    obtain ⟨d, hd, hp⟩ := exists_mem_distinctFiles.2 ⟨f, hf, rfl⟩
    rw [← hp]
    exact h d hd
  · intro h d hd
    obtain ⟨f, hf, hp⟩ := exists_mem_distinctFiles.1 ⟨d, hd, rfl⟩
    rw [← hp]
    exact h f hf

/-- A graph that has been built is the graph of its files. -/
theorem isGraphOf_of_build {files : List DiscoveredFile} (h : build files opener = .ok g) :
    g.IsGraphOf files opener := by
  rcases reads_all_or_first_fails opener (distinctFiles files) with hr | ⟨pre, file, post, e, hs, hp, hf⟩
  · obtain ⟨g', hg', hscan⟩ := exists_scannedTo opener
      (Nat.le_refl (ofFiles files).size) (by
        intro i _ node hn
        rw [node?_ofFiles] at hn
        obtain ⟨file, hf, rfl⟩ := Option.map_eq_some_iff.1 hn
        exact hr file (List.mem_of_getElem? hf))
    have heq : build files opener = .ok g' := hg'
    rw [heq] at h
    obtain rfl := Except.ok.inj h
    exact hscan.isGraphOf
  · rw [build_of_fails hs hp hf] at h
    cases h

/-- **Building gives the graph of the files, or the failure of the first node that has one.** A
graph is built exactly when every file can be read at the normal form of its path. -/
theorem build_characterisation (files : List DiscoveredFile) (opener : Opener) :
    ((∃ g, build files opener = .ok g) ↔
        ∀ file ∈ files, ∃ bytes, opener.Reads file.path.normalize bytes) ∧
      (∀ g, build files opener = .ok g → g.IsGraphOf files opener) ∧
      ∀ e, build files opener = .error e ↔
        ∃ pre file post, distinctFiles files = pre ++ file :: post ∧
          (∀ f ∈ pre, ∃ bytes, opener.Reads f.path bytes) ∧ opener.Fails file.path e := by
  refine ⟨⟨?_, exists_build_of_reads⟩, fun g hg => isGraphOf_of_build hg, fun e => ⟨?_, ?_⟩⟩
  · rintro ⟨g, hg⟩
    rcases reads_all_or_first_fails opener (distinctFiles files) with hr | ⟨pre, f, post, e, hs, hp, hf⟩
    · exact reads_distinctFiles_iff.1 hr
    · rw [build_of_fails hs hp hf] at hg
      cases hg
  · intro he
    rcases reads_all_or_first_fails opener (distinctFiles files) with hr | ⟨pre, f, post, e', hs, hp, hf⟩
    · obtain ⟨g, hg⟩ := exists_build_of_reads (reads_distinctFiles_iff.1 hr)
      rw [hg] at he
      cases he
    · rw [build_of_fails hs hp hf] at he
      obtain rfl := Except.error.inj he
      exact ⟨pre, f, post, hs, hp, hf⟩
  · rintro ⟨pre, file, post, hs, hp, hf⟩
    exact build_of_fails hs hp hf

end ImportGraph

end SolVendor
