import Mathlib.Algebra.GroupWithZero.Nat
import Mathlib.Data.Nat.Find
import SolVendor.Proofs.Graph.Induced
import SolVendor.Proofs.Graph.Reachability
/-!
# Graph — how long the walk of a closure takes

Every step of the walk takes one node from the stack. If the node has been
visited, that is all; if not, the step expands it: the node is visited, and
what it imports goes on the stack. A visited node is not expanded again, so
the nodes that a walk expands are all different (`nodup_expanded`), and
each of them puts no more on the stack than it has edges. What the steps
take from the stack, the seeds or these edges have put there
(`add_length_stack_run_le`). So the walk ends within the edges of the
closure itself (`run_stepBound`), however many others the graph has.
-/

namespace SolVendor.ImportGraph

variable {g : ImportGraph} {seeds : List NodeId} {i : NodeId}

namespace Walk

variable {w : Walk} {n : Nat}

/-- The node that the next step expands: the one on top of the stack, unless it has been visited. -/
def expanding? (w : Walk) : Option NodeId :=
  w.stack.head?.filter fun id => !w.visited.contains id

/-- The nodes that so many steps expand, in their order. -/
def expanded (g : ImportGraph) : Nat → Walk → List NodeId
  | 0, _ => []
  | n + 1, w => w.expanding?.toList ++ expanded g n (w.step g)

/-! ## One step -/

/-- A step that expands nothing takes one node from the stack, if there is one. -/
theorem step_of_expanding?_eq_none (h : w.expanding? = none) :
    w.step g = ⟨w.visited, w.stack.tail⟩ := by
  unfold expanding? at h
  unfold Walk.step
  split
  · rename_i hstack
    rw [hstack, List.tail_nil, ← hstack]
  · rename_i id rest hstack
    rw [hstack, List.head?_cons, Option.filter_eq_none_iff] at h
    have hvisited : w.visited.contains id = true := by simpa using h id rfl
    rw [if_pos hvisited, hstack]
    rfl

/-- A step that expands a node has taken it from the stack; it visits the node, and what the node
imports goes on the stack in its place, but for what has been visited. -/
theorem step_of_expanding?_eq_some (h : w.expanding? = some i) :
    i ∉ w.visited ∧ ∃ rest, w.stack = i :: rest ∧ w.step g = ⟨w.visited.insert i,
      ((g.deps i).filter fun next => !(w.visited.insert i).contains next).reverse ++ rest⟩ := by
  unfold expanding? at h
  rw [Option.filter_eq_some_iff] at h
  obtain ⟨htop, hnew⟩ := h
  obtain ⟨rest, hstack⟩ := List.head?_eq_some_iff.1 htop
  rw [Bool.not_eq_true'] at hnew
  refine ⟨contains_eq_false.1 hnew, rest, hstack, ?_⟩
  unfold Walk.step
  rw [hstack]
  simp only [hnew, Bool.false_eq_true, if_false]

/-- **A step visits just what it expands.** -/
theorem mem_visited_step :
    i ∈ (w.step g).visited ↔ i ∈ w.visited ∨ i ∈ w.expanding?.toList := by
  rcases h : w.expanding? with _ | id
  · rw [step_of_expanding?_eq_none h]
    simp
  · obtain ⟨-, rest, -, hstep⟩ := step_of_expanding?_eq_some (g := g) h
    rw [hstep, mem_insert_visited, Option.toList_some, List.mem_singleton, or_comm]

/-- **A step takes one node from the stack**, and puts no more there than what it expands imports. -/
theorem succ_length_stack_step_le (h : w.stack ≠ []) :
    (w.step g).stack.length + 1 ≤
      w.stack.length + (w.expanding?.toList.map fun id => (g.deps id).length).sum := by
  rcases hexp : w.expanding? with _ | id
  · rw [step_of_expanding?_eq_none hexp, List.length_tail]
    have hpos := List.length_pos_iff.2 h
    simp only [Option.toList_none, List.map_nil, List.sum_nil]
    omega
  · obtain ⟨-, rest, hstack, hstep⟩ := step_of_expanding?_eq_some (g := g) hexp
    have hpushed := List.length_filter_le
      (fun next => !(w.visited.insert id).contains next) (g.deps id)
    rw [hstep, hstack]
    simp only [Option.toList_some, List.map_cons, List.map_nil, List.sum_cons, List.sum_nil,
      List.length_append, List.length_reverse, List.length_cons]
    omega

/-! ## Many steps -/

theorem mem_visited_run : i ∈ (run g n w).visited ↔ i ∈ w.visited ∨ i ∈ expanded g n w := by
  induction n generalizing w with
  | zero => simp [run, expanded]
  | succ n ih => rw [run, ih, mem_visited_step, expanded, List.mem_append, or_assoc]

/-- What has been visited is not expanded any more. -/
theorem notMem_visited_of_mem_expanded (h : i ∈ expanded g n w) : i ∉ w.visited := by
  induction n generalizing w with
  | zero => exact absurd h List.not_mem_nil
  | succ n ih =>
    rw [expanded, List.mem_append] at h
    rcases h with h | h
    · exact (step_of_expanding?_eq_some (g := g) (Option.mem_toList.1 h)).1
    · exact fun hi => ih h (mem_visited_step.2 (.inl hi))

/-- **No node is expanded twice.** -/
theorem nodup_expanded (g : ImportGraph) (n : Nat) (w : Walk) : (expanded g n w).Nodup := by
  induction n generalizing w with
  | zero => exact List.nodup_nil
  | succ n ih =>
    rw [expanded, List.nodup_append]
    refine ⟨Option.toList_nodup _, ih (w.step g), fun i hi j hj => ?_⟩
    rintro rfl
    exact notMem_visited_of_mem_expanded hj (mem_visited_step.2 (.inr hi))

/-- **What the steps have taken from the stack, and what is still there,** was there at first or is
imported by a node that has been expanded. -/
theorem add_length_stack_run_le (h : ∀ m < n, (run g m w).stack ≠ []) :
    n + (run g n w).stack.length ≤
      w.stack.length + ((expanded g n w).map fun id => (g.deps id).length).sum := by
  induction n generalizing w with
  | zero => simp [run, expanded]
  | succ n ih =>
    have hrest := ih fun m hm => h (m + 1) (by omega)
    have hstack : w.stack ≠ [] := h 0 (by omega)
    have hstep := succ_length_stack_step_le (g := g) hstack
    rw [run, expanded, List.map_append, List.sum_append]
    omega

/-- A walk that has stopped takes no more steps. -/
theorem run_eq_run_of_le {m : Nat} (h : (run g n w).stack = []) (hle : n ≤ m) :
    run g m w = run g n w := by
  obtain ⟨k, rfl⟩ := Nat.exists_eq_add_of_le hle
  induction n generalizing w with
  | zero => exact run_of_stack_nil h _
  | succ n ih =>
    rw [Nat.add_right_comm]
    exact ih h (Nat.le_add_right n k)

end Walk

/-! ## The walk of a closure -/

/-- The seeds that belong to the graph and the edges of the nodes in their closure, counted. -/
def stepBound (g : ImportGraph) (seeds : List NodeId) : Nat :=
  (seeds.filter fun id => (g.node? id).isSome).length +
    ((g.closure seeds).toList.map fun id => (g.deps id).length).sum

/-- When the walk has stopped, it has expanded the nodes of the closure, once each. -/
theorem expanded_perm_closure {n : Nat} (h : (Walk.run g n (Walk.start g seeds)).stack = []) :
    (Walk.expanded g n (Walk.start g seeds)).Perm (g.closure seeds).toList := by
  rw [List.perm_ext_iff_of_nodup (Walk.nodup_expanded g n _) (nodup_toList _)]
  intro i
  have hvisited := Walk.mem_visited_run (g := g) (n := n) (w := Walk.start g seeds) (i := i)
  rw [run_eq_closure h] at hvisited
  rw [Std.ExtTreeSet.mem_toList, hvisited]
  exact (or_iff_right Std.ExtTreeSet.not_mem_empty).symm

/-- **The walk of a closure takes so many steps at most**, whatever cycles and repeated edges there are: as many as
there are seeds in the graph and edges of nodes in the closure. It stops for good after some number of steps within
that bound; until then it has expanded every node of the closure, each of them once. So the closure is what the walk
has visited when it may take as many steps as the bound allows. -/
theorem run_stepBound (g : ImportGraph) (seeds : List NodeId) :
    (∀ n, (Walk.expanded g n (Walk.start g seeds)).Nodup) ∧
      (∃ n ≤ stepBound g seeds,
        (∀ m, (Walk.run g m (Walk.start g seeds)).stack = [] ↔ n ≤ m) ∧
        (Walk.expanded g n (Walk.start g seeds)).Perm (g.closure seeds).toList) ∧
      Walk.run g (stepBound g seeds) (Walk.start g seeds) = ⟨g.closure seeds, []⟩ := by
  have hstops := exists_stack_run_eq_nil g seeds
  -- The first time that the stack is empty.
  obtain ⟨n, hn, hfirst⟩ : ∃ n, (Walk.run g n (Walk.start g seeds)).stack = [] ∧
      ∀ m < n, (Walk.run g m (Walk.start g seeds)).stack ≠ [] :=
    ⟨Nat.find hstops, Nat.find_spec hstops, fun m hm => Nat.find_min hstops hm⟩
  have hperm := expanded_perm_closure hn
  have hbound : n ≤ stepBound g seeds := by
    have hle := Walk.add_length_stack_run_le hfirst
    have hstart : (Walk.start g seeds).stack.length =
        (seeds.filter fun id => (g.node? id).isSome).length := List.length_reverse
    rw [hn, hstart, (hperm.map _).sum_nat, List.length_nil, Nat.add_zero] at hle
    exact hle
  refine ⟨fun n => Walk.nodup_expanded g n _, ⟨n, hbound, fun m => ⟨fun hm => ?_, fun hle => ?_⟩, hperm⟩, ?_⟩
  · exact Nat.le_of_not_lt fun hlt => hfirst m hlt hm
  · rw [Walk.run_eq_run_of_le hn hle, hn]
  · have hrun := Walk.run_eq_run_of_le hn hbound
    have hstack : (Walk.run g (stepBound g seeds) (Walk.start g seeds)).stack = [] := by
      rw [hrun, hn]
    rw [← run_eq_closure hstack, ← hstack]

/-- In a chain the walk takes all the steps that the bound allows. -/
example :
    let g : ImportGraph := ⟨#[⟨"A.sol", ⟨"A.sol"⟩, [1]⟩, ⟨"B.sol", ⟨"B.sol"⟩, []⟩], ∅⟩
    stepBound g [0] = 2 ∧ (Walk.run g 1 (Walk.start g [0])).stack = [1] := by decide +kernel

end SolVendor.ImportGraph
