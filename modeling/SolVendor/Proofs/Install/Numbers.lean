import SolVendor.Install.Parallel
import SolVendor.Proofs.Concurrency.RelyGuarantee
import SolVendor.Proofs.Graph.Reachability
import SolVendor.Proofs.Install.Reports
/-!
# Install — numbers that come from a graph

Nodes are known by their numbers, and a number means something only in its
graph. While a graph is built it passes through others: one for each file
that has been given a number, and one for each node that has been scanned
(`Arises`). In all of them the index is right (`Arises.wellIndexed`), as one
step keeps it so.

Hence numbers that come from a graph lead to nodes of it (`ResolvesOwn`).
The list command leaves out none of the imports of a node, the install
command none of the selected nodes, and the export of a closure meets no
node that is foreign to the graph. All of this is assembled in
`arises_indexed`.
-/

namespace SolVendor

/-- What is found everywhere is all found. -/
theorem map_some_filterMap {α β : Type} {f : α → Option β} {l : List α} (h : ∀ a ∈ l, (f a).isSome) :
    (l.filterMap f).map some = l.map f := by
  induction l with
  | nil => rfl
  | cons a l ih =>
    obtain ⟨b, hb⟩ := Option.isSome_iff_exists.1 (h a List.mem_cons_self)
    rw [List.filterMap_cons, hb, List.map_cons, List.map_cons, hb,
      ih fun x hx => h x (List.mem_cons_of_mem a hx)]

/-! ## An export and foreign nodes -/

namespace Export

variable {tree dest : Path} {g : ImportGraph} {files : NodeSet} {h h' : Host} {α : Type}

/-- The export has been refused, as a node does not belong to its graph. -/
def IsForeign (result : Except Failure α) : Prop :=
  ∃ i, result = .error (.foreignNode i)

theorem not_isForeign_ok (a : α) : ¬ IsForeign (.ok a : Except Failure α) := nofun

theorem not_isForeign_during (activity : Activity) (cause : Failure) :
    ¬ IsForeign (.error (.during activity cause) : Except Failure α) := nofun

/-- A failure that says what was being done is no such refusal. -/
theorem not_isForeign_run_during (activity : Activity) (a : Action α) (h : Host) :
    ¬ IsForeign (Action.run (Action.during activity a) h).1 := by
  rw [Action.run_during]
  cases (Action.run a h).1 with
  | ok x => exact not_isForeign_ok x
  | error cause => exact not_isForeign_during activity cause

/-- What follows an action is refused, or the action is. -/
theorem not_isForeign_run_bind {β : Type} {a : Action α} {f : α → Action β}
    (ha : ¬ IsForeign (Action.run a h).1) (hf : ∀ x g, ¬ IsForeign (Action.run (f x) g).1) :
    ¬ IsForeign (Action.run (a >>= f) h).1 := by
  rw [Action.run_bind]
  rcases hrun : Action.run a h with ⟨e | x, g⟩
  · rw [hrun] at ha
    rintro ⟨i, hi⟩
    cases hi
    exact ha ⟨i, rfl⟩
  · exact hf x g

theorem not_isForeign_copyFile (tree dest file : Path) (h : Host) :
    ¬ IsForeign (Action.run (copyFile tree dest file) h).1 := by
  unfold copyFile
  dsimp only
  split
  · exact not_isForeign_run_bind (not_isForeign_run_during _ _ h) fun _ g => not_isForeign_run_during _ _ g
  · exact not_isForeign_run_during _ _ h

theorem not_isForeign_copyAll (tree dest : Path) (paths : List Path) (h : Host) :
    ¬ IsForeign (Action.run (copyAll tree dest paths) h).1 := by
  induction paths generalizing h with
  | nil => exact not_isForeign_ok ()
  | cons file paths ih =>
    exact not_isForeign_run_bind (not_isForeign_copyFile tree dest file h) fun _ g => ih g

/-- **If the paths of the nodes are there, no node is found to be foreign** by the copies that are made one after
the other. -/
theorem not_isForeign_run {paths : List Path} (hpaths : pathsOf g files = .ok paths) (dryRun : Bool) :
    ¬ IsForeign (Action.run (run tree dest g files dryRun) h).1 := by
  unfold run
  refine not_isForeign_run_bind ?_ fun found g => ?_
  · rw [Action.run_ofExcept, hpaths]
    exact not_isForeign_ok paths
  · cases dryRun with
    | true => exact not_isForeign_ok found
    | false =>
      exact not_isForeign_run_bind (not_isForeign_copyAll tree dest found g) fun _ _ => not_isForeign_ok found

/-- A copy that goes on among others does not come to such a refusal. -/
theorem mustDo_copyEach_isForeign (tree dest file : Path) :
    Process.MustDo (fun _ _ => False) IsForeign (copyEach tree dest file) := by
  have hway : Process.MustDo (fun _ _ => False) IsForeign (makeWayEach (dest.join file)) := by
    unfold makeWayEach
    split
    · exact Task.mustDo_during not_isForeign_ok (not_isForeign_during _)
    · exact not_isForeign_ok ()
  refine hway.bind fun r hr => ?_
  cases r with
  | ok x => exact Task.mustDo_during not_isForeign_ok (not_isForeign_during _)
  | error e => exact hr

/-- **Neither is one found by the copies that are made at the same time.** -/
theorem not_isForeign_of_ends {paths : List Path} {result : Except Failure (List Path)}
    (hpaths : pathsOf g files = .ok paths) (he : Ends tree dest g files h result h') : ¬ IsForeign result := by
  cases he with
  | refused herror =>
    rw [hpaths] at herror
    cases herror
  | copied _ _ _ => exact not_isForeign_ok _
  | @failed paths _ pool _ e _ hrun _ hresult =>
    have hnever : ∀ p ∈ (copies tree dest paths h).processes, p.MustDo (fun _ _ => False) IsForeign := by
      intro p hp
      obtain ⟨file, -, rfl⟩ := List.mem_map.1 hp
      exact mustDo_copyEach_isForeign tree dest file
    rintro ⟨i, hi⟩
    cases hi
    exact Pool.not_of_result hnever hrun hresult ⟨i, rfl⟩

end Export

namespace ImportGraph

variable {g : ImportGraph} {files : List DiscoveredFile} {opener : Opener} {i : NodeId}

/-! ## The graphs that building passes through -/

/-- The graphs that arise while a graph is built: some of the files have been given their numbers, or all
files have, and some of the nodes have been scanned. -/
inductive Arises (files : List DiscoveredFile) (opener : Opener) : ImportGraph → Prop
  | numbered {done later : List DiscoveredFile} : files = done ++ later →
      Arises files opener (ofFiles done)
  | scanned {done later : List NodeId} {g : ImportGraph} :
      List.range (ofFiles files).size = done ++ later →
      done.foldlM (scanNode opener) (ofFiles files) = .ok g → Arises files opener g

/-- **Every graph that arises is well indexed.** -/
theorem Arises.wellIndexed (h : Arises files opener g) : g.WellIndexed := by
  cases h with
  | numbered _ => exact wellIndexed_ofFiles _
  | scanned _ hrun => exact (wellIndexed_ofFiles files).foldlM_scanNode hrun

/-- The graph that is returned has arisen. -/
theorem arises_of_build (h : build files opener = .ok g) : Arises files opener g :=
  .scanned (List.append_nil _).symm h

/-! ## What the numbers of a graph lead to -/

/-- Numbers that come from the graph lead to nodes of it, wherever they are looked up. -/
structure ResolvesOwn (g : ImportGraph) : Prop where
  /-- The list command tells the paths of all that a node imports. -/
  listed : ∀ selected : NodeSet, (Listing.filesOf g selected).map (fun e => e.deps.map some) =
    (List.range g.size).map fun i => (g.deps i).map fun j => (g.path? j).map Path.text
  /-- The install command tells the paths of all selected nodes. -/
  selected : ∀ {queries ids}, g.select queries = .ok ids →
    (Installation.pathTexts g ids).map some = ids.toList.map fun i => (g.path? i).map Path.text
  /-- The nodes of a closure have paths, one for each node. -/
  exported : ∀ seeds, ∃ paths, Export.pathsOf g (g.closure seeds) = .ok paths ∧
    (g.closure seeds).toList.map g.path? = paths.map some
  /-- An export of a closure finds no node that is foreign, in whatever order it copies. -/
  notForeign : ∀ {tree dest seeds h}, (∀ {result h'}, Export.Ends tree dest g (g.closure seeds) h result h' →
    ¬ Export.IsForeign result) ∧ ∀ dryRun, ¬ Export.IsForeign
      (Action.run (Export.run tree dest g (g.closure seeds) dryRun) h).1

theorem isSome_path?_iff : (g.path? i).isSome ↔ i < g.size := by
  unfold path?
  rw [Option.isSome_map, Option.isSome_iff_exists]
  exact ⟨fun ⟨_, hn⟩ => lt_size_of_node? hn, exists_node?_of_lt⟩

theorem map_node?_text : (g.node? i).map (fun node => node.path.text) = (g.path? i).map Path.text := by
  unfold path?
  rw [Option.map_map]
  rfl

/-- The nodes of a closure have paths. -/
theorem WellIndexed.exists_pathsOf_closure (hw : g.WellIndexed) (seeds : List NodeId) :
    ∃ paths, Export.pathsOf g (g.closure seeds) = .ok paths :=
  Export.exists_pathsOf fun i hi => by
    obtain ⟨node, hn⟩ := Option.isSome_iff_exists.1 (hw.isSome_node?_of_mem_closure hi)
    exact ⟨node.path, path?_eq_some_iff.2 ⟨node, hn, rfl⟩⟩

/-- **In a well-indexed graph all numbers of the graph lead to nodes.** -/
theorem WellIndexed.resolvesOwn (hw : g.WellIndexed) : g.ResolvesOwn where
  listed selected := by
    have hdeps : ∀ i node, (Listing.entryOf g selected i node).deps.map some =
        (g.deps i).map fun j => (g.path? j).map Path.text := by
      intro i node
      simp only [Listing.entryOf, map_node?_text]
      refine map_some_filterMap fun j hj => ?_
      rw [Option.isSome_map]
      obtain ⟨q, hq⟩ := Listing.exists_path?_of_deps hw hj
      rw [hq]
      rfl
    rw [Listing.filesOf_eq, List.map_map, List.range_eq_range', size, ← Array.length_toList,
      ← List.zipIdx_map_snd 0 g.nodes.toList, List.map_map]
    exact List.map_congr_left fun x _ => hdeps x.2 x.1
  selected := by
    intro queries ids hselect
    unfold Installation.pathTexts
    simp only [map_node?_text]
    refine map_some_filterMap fun i hi => ?_
    obtain ⟨query, -, hfind⟩ := (mem_of_select hselect).1 (Std.ExtTreeSet.mem_toList.1 hi)
    obtain ⟨node, hn⟩ := hw.exists_node?_of_find hfind
    rw [Option.isSome_map, isSome_path?_iff]
    exact lt_size_of_node? hn
  exported seeds := by
    obtain ⟨paths, hpaths⟩ := hw.exists_pathsOf_closure seeds
    exact ⟨paths, hpaths, Export.map_path?_of_pathsOf hpaths⟩
  notForeign := by
    intro tree dest seeds h
    obtain ⟨paths, hpaths⟩ := hw.exists_pathsOf_closure seeds
    exact ⟨Export.not_isForeign_of_ends hpaths, Export.not_isForeign_run hpaths⟩

/-- **In every graph that arises the index is right.** The graph that is returned is one of them. The paths of
the nodes are different normal forms; the index names each node at its path and nothing else; and edges lead
to nodes. So a path, however it is spelled, finds the node at its normal form, and numbers that come from the
graph lead to nodes wherever they are looked up. -/
theorem arises_indexed (files : List DiscoveredFile) (opener : Opener) :
    (∀ g, build files opener = .ok g → Arises files opener g) ∧
      ∀ g, Arises files opener g →
        (∀ i p, g.path? i = some p → p.normalize = p) ∧
        (∀ i j p, g.path? i = some p → g.path? j = some p → i = j) ∧
        (∀ p i, g.index[p]? = some i ↔ i < g.size ∧ g.path? i = some p) ∧
        (∀ i, ∀ j ∈ g.deps i, j < g.size) ∧
        (∀ p i, g.lookup? p = some i ↔ g.path? i = some p.normalize) ∧ g.ResolvesOwn := by
  refine ⟨fun g => arises_of_build, fun g harises => ?_⟩
  have hw := harises.wellIndexed
  refine ⟨fun i p hp => ?_, fun i j p => hw.path?_inj, fun p i => ?_, fun i j hj => ?_, fun p i => ?_, hw.resolvesOwn⟩
  · obtain ⟨node, hn, rfl⟩ := path?_eq_some_iff.1 hp
    exact hw.normal hn
  · rw [hw.index, ← path?_eq_some_iff]
    exact ⟨fun hp => ⟨isSome_path?_iff.1 (by rw [hp]; rfl), hp⟩, And.right⟩
  · obtain ⟨node, hn⟩ := hw.exists_node?_of_deps hj
    exact lt_size_of_node? hn
  · rw [hw.lookup?_eq_some_iff, path?_eq_some_iff]

/-- Three files, of which the second one is where the first one is. -/
def foundTwice : List DiscoveredFile :=
  [⟨"A.sol", ⟨"src/A.sol"⟩⟩, ⟨"B.sol", ⟨"src/./A.sol"⟩⟩, ⟨"C.sol", ⟨"src/C.sol"⟩⟩]

/-- Each of them imports the last one. -/
def importsLast : Opener := fun _ => .ok ⟨"import './C.sol';\n".toUTF8.toList, none⟩

/-- The second file has no number; when the first node has been scanned, its edge leads to the node of the last
file. -/
theorem arises_indexed_sample :
    ∃ g, [0].foldlM (scanNode importsLast) (ofFiles foundTwice) = .ok g ∧
      (List.range g.size).map g.deps = [[1], []] ∧ g.path? 1 = some ⟨"src/C.sol"⟩ ∧
      g.lookup? ⟨"src//x/../C.sol"⟩ = some 1 ∧
      (Listing.filesOf g ∅).map (fun e => e.deps.map some) = [[some "src/C.sol"], []] := by
  have heval : ([0].foldlM (scanNode importsLast) (ofFiles foundTwice)).toOption.map (fun g =>
      (g.size, (List.range g.size).map g.deps, g.path? 1)) =
        some (2, [[1], []], some ⟨"src/C.sol"⟩) := by decide +kernel
  rcases hg : [0].foldlM (scanNode importsLast) (ofFiles foundTwice) with e | g
  · rw [hg] at heval
    cases heval
  rw [hg] at heval
  obtain ⟨hsize, hpair⟩ := Prod.mk.inj (Option.some.inj heval)
  obtain ⟨hdeps, hpath⟩ := Prod.mk.inj hpair
  have hrange : List.range (ofFiles foundTwice).size = [0] ++ [1] := by decide +kernel
  obtain ⟨-, -, -, -, hlookup, hown⟩ := (arises_indexed foundTwice importsLast).2 g (.scanned hrange hg)
  refine ⟨g, rfl, hdeps, hpath, ?_, ?_⟩
  · rw [hlookup, hpath]
    decide +kernel
  · rw [hown.listed, hsize]
    rw [hsize] at hdeps
    obtain ⟨h0, h1⟩ : g.deps 0 = [1] ∧ g.deps 1 = [] := by simpa [List.range_succ] using hdeps
    simp [List.range_succ, h0, h1, hpath]

end ImportGraph

end SolVendor
