import Mathlib.Order.Bounds.Basic
import SolVendor.Proofs.Graph.Query
/-!
# Graph — closures as least sets

The walk of a closure stops, and it stops with the closure
(`run_eq_closure`): the nodes that a way leads to from a seed of the graph.
So a closure is the least set of nodes that has the seeds and all that its
own nodes import (`isLeast_closure`), whatever cycles there are and however
the seeds are listed. As a consequence the closure of two lists of seeds
together is made of the closures of each (`mem_closure_append`).
-/

namespace SolVendor.ImportGraph

variable {g : ImportGraph} {seeds : List NodeId} {i j : NodeId}

/-- What the nodes of the set import is in the set. -/
def IsClosed (g : ImportGraph) (s : Set NodeId) : Prop :=
  ∀ i ∈ s, ∀ j ∈ g.deps i, j ∈ s

/-- The seeds that belong to the graph are in the set. -/
def HasSeeds (g : ImportGraph) (seeds : List NodeId) (s : Set NodeId) : Prop :=
  ∀ seed ∈ seeds, (g.node? seed).isSome → seed ∈ s

/-- A closed set has all that its nodes reach. -/
theorem IsClosed.mem_of_reaches {s : Set NodeId} (h : g.IsClosed s) (hi : i ∈ s)
    (hr : g.Reaches i j) : j ∈ s := by
  induction hr with
  | refl => exact hi
  | tail _ hj ih => exact h _ ih _ hj

/-! ## The walk stops with the closure -/

/-- The walk stops in the end. -/
theorem exists_stack_run_eq_nil (g : ImportGraph) (seeds : List NodeId) :
    ∃ n, (Walk.run g n (Walk.start g seeds)).stack = [] :=
  ⟨_, Walk.stack_run (Walk.potential_start_le g seeds)⟩

/-- **Whenever the walk has stopped, the closure is what it has visited.** -/
theorem run_eq_closure {n : Nat} (h : (Walk.run g n (Walk.start g seeds)).stack = []) :
    (Walk.run g n (Walk.start g seeds)).visited = g.closure seeds := by
  refine Std.ExtTreeSet.ext_mem fun i => ?_
  rw [((Walk.isAt_start g seeds).run n).mem_visited_iff h, mem_closure_iff]

/-! ## What belongs to the graph -/

/-- In a well-indexed graph nothing foreign is in a closure. -/
theorem WellIndexed.isSome_node?_of_mem_closure (h : g.WellIndexed) (hi : i ∈ g.closure seeds) :
    (g.node? i).isSome := by
  obtain ⟨seed, -, hnode, hr⟩ := mem_closure_iff.1 hi
  rcases hr.cases_tail with rfl | ⟨j, -, hj⟩
  · exact hnode
  · exact Option.isSome_iff_exists.2 (h.exists_node?_of_deps hj)

/-! ## Closures of several lists of seeds -/

/-- **Seeds may be taken together.** -/
theorem mem_closure_append {seeds' : List NodeId} :
    i ∈ g.closure (seeds ++ seeds') ↔ i ∈ g.closure seeds ∨ i ∈ g.closure seeds' := by
  simp only [mem_closure_iff, IsNeeded, List.mem_append]
  constructor
  · rintro ⟨seed, hs | hs, h⟩
    · exact .inl ⟨seed, hs, h⟩
    · exact .inr ⟨seed, hs, h⟩
  · rintro (⟨seed, hs, h⟩ | ⟨seed, hs, h⟩)
    · exact ⟨seed, .inl hs, h⟩
    · exact ⟨seed, .inr hs, h⟩

/-! ## The least set -/

/-- **A closure is the least closed set with the seeds.** The walk stops, and with the closure. In it are just the
nodes to which edges lead, any number of them, from a seed that belongs to the graph; so it is the least set that
has these seeds and all that its nodes import. In a graph that has been built nothing foreign is in it. -/
theorem isLeast_closure (g : ImportGraph) (seeds : List NodeId) :
    (∃ n, (Walk.run g n (Walk.start g seeds)).stack = []) ∧
      (∀ n, (Walk.run g n (Walk.start g seeds)).stack = [] →
        (Walk.run g n (Walk.start g seeds)).visited = g.closure seeds) ∧
      (∀ i, i ∈ g.closure seeds ↔ ∃ seed ∈ seeds, (g.node? seed).isSome ∧
        Relation.ReflTransGen (fun i j => j ∈ g.deps i) seed i) ∧
      IsLeast {s : Set NodeId | g.HasSeeds seeds s ∧ g.IsClosed s} {i | i ∈ g.closure seeds} ∧
      ∀ files opener, build files opener = .ok g → ∀ i ∈ g.closure seeds, (g.node? i).isSome := by
  refine ⟨exists_stack_run_eq_nil g seeds, fun n => run_eq_closure, fun i => mem_closure_iff,
    ⟨⟨?_, ?_⟩, ?_⟩, ?_⟩
  · exact fun seed hs hnode => mem_closure_iff.2 ⟨seed, hs, hnode, .refl⟩
  · exact fun i hi j hj => mem_closure_of_deps hi hj
  · rintro s ⟨hseeds, hclosed⟩ i hi
    obtain ⟨seed, hs, hnode, hr⟩ := mem_closure_iff.1 hi
    exact hclosed.mem_of_reaches (hseeds seed hs hnode) hr
  · exact fun files opener hbuild i hi =>
      (wellIndexed_of_build hbuild).isSome_node?_of_mem_closure hi

/-- Three files: the first imports itself, and the second one twice; the others import the first. -/
def cyclicSources : List DiscoveredFile :=
  [⟨"A.sol", ⟨"A.sol"⟩⟩, ⟨"B.sol", ⟨"B.sol"⟩⟩, ⟨"C.sol", ⟨"C.sol"⟩⟩]

/-- What the three files hold. -/
def cyclicOpener : Opener := fun p =>
  let text := if p.text = "A.sol" then "import './A.sol';\nimport './B.sol';\nimport './B.sol';\n"
    else "import './A.sol';\n"
  .ok ⟨text.toUTF8.toList, none⟩

/-- A node of the cycle, named twice and beside a number that is no node, has the whole cycle in its closure, but
not the file that leads into it. -/
theorem isLeast_closure_sample :
    ∃ g, build cyclicSources cyclicOpener = .ok g ∧
      (List.range 3).map g.deps = [[0, 1, 1], [0], [0]] ∧
      (g.closure [1, 7, 1]).toList = [0, 1] ∧
      (∀ i ∈ g.closure [1, 7, 1], (g.node? i).isSome) ∧
      IsLeast {s : Set NodeId | g.HasSeeds [1, 7, 1] s ∧ g.IsClosed s} {0, 1} := by
  have heval : (build cyclicSources cyclicOpener).toOption.map
      (fun g => ((List.range 3).map g.deps, (g.closure [1, 7, 1]).toList)) =
        some ([[0, 1, 1], [0], [0]], [0, 1]) := by decide +kernel
  rcases hg : build cyclicSources cyclicOpener with e | g
  · rw [hg] at heval
    cases heval
  rw [hg] at heval
  obtain ⟨hdeps, hlist⟩ := Prod.mk.inj (Option.some.inj heval)
  obtain ⟨-, -, -, hleast, hnodes⟩ := isLeast_closure g [1, 7, 1]
  have hset : {i | i ∈ g.closure [1, 7, 1]} = ({0, 1} : Set NodeId) := by
    ext i
    rw [Set.mem_ofPred_eq, ← Std.ExtTreeSet.mem_toList, hlist]
    simp
  exact ⟨g, rfl, hdeps, hlist, hnodes _ _ hg, hset ▸ hleast⟩

end SolVendor.ImportGraph
