import SolVendor.Install.Export
import SolVendor.Proofs.Graph.Closure
import SolVendor.Proofs.Graph.Induced
import SolVendor.Proofs.Graph.Query
/-!
# Graph — files that agree

A closure is walked along the edges of its own nodes, so two graphs with
the same nodes that agree on the edges of one closure have that closure in
common (`closure_congr`). The edges of a node come from its file. So what
the files outside a closure hold has no part in it: the closure, its edges
and the paths that an export copies are those of the files in the closure
(`closure_eq_of_reads`).
-/

namespace SolVendor.ImportGraph

variable {g g' : ImportGraph} {files : List DiscoveredFile} {opener opener' : Opener}
  {seeds : List NodeId} {i : NodeId} {node : SourceFile}

/-- The edges of a node. -/
theorem deps_of_node? (hi : g.node? i = some node) : g.deps i = node.deps := by
  unfold deps
  rw [hi]
  rfl

/-- A node is in its own closure. -/
theorem mem_closure_of_mem (hi : i ∈ seeds) (hnode : (g.node? i).isSome) : i ∈ g.closure seeds :=
  mem_closure_iff.2 ⟨i, hi, hnode, .refl⟩

/-- **Two graphs that agree on the edges of a closure have it in common.** The edges of the other nodes
may differ. -/
theorem closure_congr (hnodes : ∀ i, (g.node? i).isSome = (g'.node? i).isSome)
    (hdeps : ∀ i ∈ g.closure seeds, g.deps i = g'.deps i) : g.closure seeds = g'.closure seeds := by
  refine Std.ExtTreeSet.ext_mem fun i => ⟨fun hi => ?_, fun hi => ?_⟩
  · obtain ⟨seed, hseed, hnode, hreach⟩ := mem_closure_iff.1 hi
    refine mem_closure_iff.2 ⟨seed, hseed, hnodes seed ▸ hnode, ?_⟩
    clear hi
    induction hreach with
    | refl => exact .refl
    | @tail j k hj hk ih =>
      rw [hdeps j (mem_closure_iff.2 ⟨seed, hseed, hnode, hj⟩)] at hk
      exact ih.tail hk
  · obtain ⟨seed, hseed, hnode, hreach⟩ := mem_closure_iff.1 hi
    clear hi
    induction hreach with
    | refl => exact mem_closure_of_mem hseed (hnodes seed ▸ hnode)
    | @tail j k _ hk ih =>
      rw [← hdeps j ih] at hk
      exact mem_closure_of_deps ih hk

/-- The nodes of graphs of the same files are at the same paths. -/
theorem IsGraphOf.path?_congr (h : g.IsGraphOf files opener) (h' : g'.IsGraphOf files opener')
    (i : NodeId) : g.path? i = g'.path? i := by
  have hfile := congrArg (Option.map DiscoveredFile.path) (h.map_node?_congr h' i)
  rw [Option.map_map, Option.map_map] at hfile
  exact hfile

/-- **A file that holds the same makes the same edges.** -/
theorem IsGraphOf.deps_congr (h : g.IsGraphOf files opener) (h' : g'.IsGraphOf files opener')
    (hi : g.node? i = some node)
    (hsame : ∀ bytes, opener.Reads node.path bytes → opener'.Reads node.path bytes) :
    g.deps i = g'.deps i := by
  obtain ⟨node', hi', hp⟩ := path?_eq_some_iff.1
    ((h.path?_congr h' i).symm.trans (path?_eq_some_iff.2 ⟨node, hi, rfl⟩))
  obtain ⟨bytes, hread, hdeps⟩ := h.deps hi
  obtain ⟨bytes', hread', hdeps'⟩ := h'.deps hi'
  rw [hp] at hread' hdeps'
  have hbytes : bytes = bytes' := by
    have heq := (hsame bytes hread).symm.trans hread'
    exact congrArg Reader.bytes (Except.ok.inj heq)
  rw [deps_of_node? hi, deps_of_node? hi', hdeps, hdeps', hbytes]
  simp only [h.idAt?_congr h']

/-- The paths of nodes are the same in graphs of the same files. -/
theorem IsGraphOf.pathsOf_congr (h : g.IsGraphOf files opener) (h' : g'.IsGraphOf files opener')
    (ids : NodeSet) : Export.pathsOf g ids = Export.pathsOf g' ids := by
  unfold Export.pathsOf
  congr 1
  funext i
  have hpath := h.path?_congr h' i
  unfold path? at hpath
  cases hi : g.node? i with
  | none =>
    rw [hi] at hpath
    rw [Option.map_eq_none_iff.1 hpath.symm]
  | some node =>
    rw [hi] at hpath
    obtain ⟨node', hi', hp⟩ := Option.map_eq_some_iff.1 hpath.symm
    rw [hi']
    simp only [hp]

/-- **What lies outside a closure has no part in it.** If two openers give the same bytes for the files of a
closure in one graph, then the other graph has the same closure, with the same edges; an export copies the
files at the same paths; and whatever the files hold, a selection means the same nodes. -/
theorem closure_eq_of_reads (h : build files opener = .ok g) (h' : build files opener' = .ok g')
    (hsame : ∀ i ∈ g.closure seeds, ∀ p, g.path? i = some p →
      ∀ bytes, opener.Reads p bytes → opener'.Reads p bytes) :
    g.closure seeds = g'.closure seeds ∧ (∀ i ∈ g.closure seeds, g.deps i = g'.deps i) ∧
      Export.pathsOf g (g.closure seeds) = Export.pathsOf g' (g'.closure seeds) ∧
      ∀ queries, g.select queries = g'.select queries := by
  have hg := isGraphOf_of_build h
  have hg' := isGraphOf_of_build h'
  have hnodes : ∀ i, (g.node? i).isSome = (g'.node? i).isSome := by
    intro i
    have hpath := congrArg Option.isSome (hg.path?_congr hg' i)
    unfold path? at hpath
    rwa [Option.isSome_map, Option.isSome_map] at hpath
  have hdeps : ∀ i ∈ g.closure seeds, g.deps i = g'.deps i := by
    intro i hi
    cases hnode : g.node? i with
    | none =>
      -- A number without a node has no edges in either graph.
      have hnone : g'.node? i = none := by
        rw [← Option.not_isSome_iff_eq_none, ← hnodes, hnode]
        exact Bool.false_ne_true
      unfold deps
      rw [hnode, hnone]
    | some node =>
      exact hg.deps_congr hg' hnode (hsame i hi _ (path?_eq_some_iff.2 ⟨node, hnode, rfl⟩))
  have hclosure := closure_congr hnodes hdeps
  refine ⟨hclosure, hdeps, ?_, hg.select_congr hg' (wellIndexed_of_build h) (wellIndexed_of_build h')⟩
  rw [← hclosure]
  exact hg.pathsOf_congr hg' _

/-! ## Two trees with one closure in common -/

/-- Three files, of which the first is to import the second. -/
def sampleSources : List DiscoveredFile :=
  [⟨"X.sol", ⟨"src/X.sol"⟩⟩, ⟨"A.sol", ⟨"src/A.sol"⟩⟩, ⟨"B.sol", ⟨"src/B.sol"⟩⟩]

/-- The first file imports the second, and the last one holds the given text. -/
def sampleOpener (text : String) : Opener := fun p =>
  if p.text = "src/X.sol" then .ok ⟨"import './A.sol';\n".toUTF8.toList, none⟩
  else if p.text = "src/B.sol" then .ok ⟨text.toUTF8.toList, none⟩
  else .ok ⟨[], none⟩

/-- What is read at a path depends on the text at one path only. -/
theorem sampleOpener_congr {p : Path} (hp : p.text ≠ "src/B.sol") (text text' : String) :
    sampleOpener text p = sampleOpener text' p := by
  unfold sampleOpener
  rw [if_neg hp, if_neg hp]

/-- The last file is not in the closure of the first, so it makes no difference to that. -/
theorem closure_eq_of_reads_sample :
    ∃ g g', build sampleSources (sampleOpener "") = .ok g ∧
      build sampleSources (sampleOpener "import './A.sol';") = .ok g' ∧
      g.deps 2 ≠ g'.deps 2 ∧ (g.closure [0]).toList = [0, 1] ∧ g.closure [0] = g'.closure [0] := by
  obtain ⟨hleft, hright⟩ :
      (build sampleSources (sampleOpener "")).toOption.map
          (fun g => (g.nodes.toList.map SourceFile.path, g.deps 2, (g.closure [0]).toList)) =
        some ([⟨"src/X.sol"⟩, ⟨"src/A.sol"⟩, ⟨"src/B.sol"⟩], [], [0, 1]) ∧
      (build sampleSources (sampleOpener "import './A.sol';")).toOption.map (fun g => g.deps 2) =
        some [1] := by decide +kernel
  rcases hg : build sampleSources (sampleOpener "") with e | g
  · rw [hg] at hleft
    cases hleft
  rcases hg' : build sampleSources (sampleOpener "import './A.sol';") with e | g'
  · rw [hg'] at hright
    cases hright
  rw [hg] at hleft
  rw [hg'] at hright
  obtain ⟨hpaths, hdeps, hlist⟩ : g.nodes.toList.map SourceFile.path =
      [⟨"src/X.sol"⟩, ⟨"src/A.sol"⟩, ⟨"src/B.sol"⟩] ∧ g.deps 2 = [] ∧
        (g.closure [0]).toList = [0, 1] := by
    simpa [Except.toOption] using hleft
  refine ⟨g, g', rfl, rfl, ?_, hlist, (closure_eq_of_reads hg hg' fun i hi p hp bytes hr => ?_).1⟩
  · have hdeps' : g'.deps 2 = [1] := Option.some.inj hright
    rw [hdeps, hdeps']
    decide
  · have hpath : (g.nodes.toList.map SourceFile.path)[i]? = some p := by
      rw [List.getElem?_map, Array.getElem?_toList]
      exact hp
    rw [← Std.ExtTreeSet.mem_toList, hlist] at hi
    have hother : p.text ≠ "src/B.sol" := by
      rw [hpaths] at hpath
      rcases List.mem_cons.1 hi with rfl | hi
      · rw [← Option.some.inj hpath]
        decide
      · obtain rfl := List.mem_singleton.1 hi
        rw [← Option.some.inj hpath]
        decide
    exact (sampleOpener_congr hother _ _).symm.trans hr

end SolVendor.ImportGraph
