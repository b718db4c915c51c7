import Mathlib.Logic.Relation
import SolVendor.Graph.Closure
/-!
# Graph — what a closure consists of

The walk of a closure keeps an invariant (`Walk.IsAt`): all that it has
visited or has still to visit is reached from a seed, and what a visited
node imports is visited or still to visit. Each step lowers a potential
(`Walk.potential_step_lt`), and a closure allows as many steps as the
potential is at the start. So the walk ends with nothing left to visit, and
the closure is what the seeds reach (`mem_closure_iff`).
-/

namespace SolVendor.ImportGraph

variable {g : ImportGraph} {seeds : List NodeId} {i j : NodeId}

/-- A node imports another one, directly or not, or is that node itself. -/
def Reaches (g : ImportGraph) : NodeId → NodeId → Prop :=
  Relation.ReflTransGen fun i j => j ∈ g.deps i

/-- The node is reached from a seed that belongs to the graph. -/
def IsNeeded (g : ImportGraph) (seeds : List NodeId) (i : NodeId) : Prop :=
  ∃ seed ∈ seeds, (g.node? seed).isSome ∧ g.Reaches seed i

theorem IsNeeded.step (h : g.IsNeeded seeds i) (hj : j ∈ g.deps i) : g.IsNeeded seeds j := by
  obtain ⟨seed, hs, hnode, hr⟩ := h
  exact ⟨seed, hs, hnode, hr.tail hj⟩

namespace Walk

variable {w : Walk} {fuel : Nat}

/-- Where the walk from some seeds stands. -/
structure IsAt (g : ImportGraph) (seeds : List NodeId) (w : Walk) : Prop where
  needed : ∀ i, i ∈ w.visited ∨ i ∈ w.stack → g.IsNeeded seeds i
  seeds_in : ∀ seed ∈ seeds, (g.node? seed).isSome → seed ∈ w.visited ∨ seed ∈ w.stack
  deps_in : ∀ i ∈ w.visited, ∀ j ∈ g.deps i, j ∈ w.visited ∨ j ∈ w.stack

theorem isAt_start (g : ImportGraph) (seeds : List NodeId) : IsAt g seeds (start g seeds) where
  needed i hi := by
    rcases hi with hi | hi
    · exact absurd hi Std.ExtTreeSet.not_mem_empty
    · obtain ⟨hmem, hnode⟩ := List.mem_filter.1 (List.mem_reverse.1 hi)
      exact ⟨i, hmem, hnode, .refl⟩
  seeds_in seed hs hnode := .inr (List.mem_reverse.2 (List.mem_filter.2 ⟨hs, hnode⟩))
  deps_in i hi := absurd hi Std.ExtTreeSet.not_mem_empty

/-- What is visited after a node has been. -/
theorem mem_insert_visited {s : NodeSet} : j ∈ s.insert i ↔ j = i ∨ j ∈ s := by
  rw [Std.ExtTreeSet.mem_insert, Std.LawfulEqOrd.compare_eq_iff_eq, eq_comm]

theorem contains_eq_false {s : NodeSet} : s.contains j = false ↔ j ∉ s := by
  rw [← Bool.not_eq_true, ← Std.ExtTreeSet.mem_iff_contains]

/-- **One step.** A node that has been visited is passed over; a new one is visited, and what it
imports is put on the stack. -/
theorem IsAt.step (h : IsAt g seeds w) : IsAt g seeds (w.step g) := by
  unfold Walk.step
  split
  · exact h
  · rename_i id rest hstack
    have hid : g.IsNeeded seeds id := h.needed id (.inr (by simp [hstack]))
    split
    · rename_i hvisited
      have hid' : id ∈ w.visited := Std.ExtTreeSet.mem_iff_contains.2 hvisited
      -- Off the stack the node is in the visited ones still.
      have hkeep : ∀ j, j ∈ w.visited ∨ j ∈ w.stack → j ∈ w.visited ∨ j ∈ rest := by
        intro j hj
        rw [hstack, List.mem_cons] at hj
        rcases hj with hj | rfl | hj
        · exact .inl hj
        · exact .inl hid'
        · exact .inr hj
      constructor
      · intro i hi
        refine h.needed i ?_
        rw [hstack]
        exact hi.imp_right (List.mem_cons_of_mem id)
      · exact fun seed hs hnode => hkeep seed (h.seeds_in seed hs hnode)
      · exact fun i hi j hj => hkeep j (h.deps_in i hi j hj)
    · -- What it imports goes on the stack, but for what has been visited.
      have hkeep : ∀ j, j ∈ w.visited ∨ j ∈ w.stack → j ∈ w.visited.insert id ∨
          j ∈ ((g.deps id).filter fun next => !(w.visited.insert id).contains next).reverse ++ rest := by
        intro j hj
        rw [hstack, List.mem_cons] at hj
        rw [mem_insert_visited, List.mem_append]
        rcases hj with hj | rfl | hj
        · exact .inl (.inr hj)
        · exact .inl (.inl rfl)
        · exact .inr (.inr hj)
      constructor
      · intro i hi
        rw [mem_insert_visited, List.mem_append, List.mem_reverse, List.mem_filter] at hi
        rcases hi with (rfl | hi) | ⟨hi, -⟩ | hi
        · exact hid
        · exact h.needed i (.inl hi)
        · exact hid.step hi
        · exact h.needed i (.inr (by simp [hstack, hi]))
      · exact fun seed hs hnode => hkeep seed (h.seeds_in seed hs hnode)
      · intro i hi j hj
        rcases mem_insert_visited.1 hi with rfl | hi
        · by_cases hnew : (w.visited.insert i).contains j = true
          · exact .inl (Std.ExtTreeSet.mem_iff_contains.2 hnew)
          · refine .inr (List.mem_append_left _ (List.mem_reverse.2 (List.mem_filter.2 ⟨hj, ?_⟩)))
            rw [Bool.not_eq_true] at hnew
            rw [hnew]
            rfl
        · exact hkeep j (h.deps_in i hi j hj)

theorem IsAt.run (h : IsAt g seeds w) (fuel : Nat) : IsAt g seeds (Walk.run g fuel w) := by
  induction fuel generalizing w with
  | zero => exact h
  | succ fuel ih => exact ih h.step

/-- **With nothing left to visit, what has been visited is what the seeds reach.** -/
theorem IsAt.mem_visited_iff (h : IsAt g seeds w) (hstack : w.stack = []) :
    i ∈ w.visited ↔ g.IsNeeded seeds i := by
  have hdone : ∀ j, j ∈ w.visited ∨ j ∈ w.stack → j ∈ w.visited := by
    rintro j (hj | hj)
    · exact hj
    · exact absurd (hstack ▸ hj) List.not_mem_nil
  constructor
  · exact fun hi => h.needed i (.inl hi)
  · rintro ⟨seed, hs, hnode, hr⟩
    induction hr with
    | refl => exact hdone _ (h.seeds_in seed hs hnode)
    | tail _ hj ih => exact hdone _ (h.deps_in _ ih _ hj)

/-! ## The walk ends -/

/-- The number of edges of the nodes that have not been visited. -/
def pendingEdges (g : ImportGraph) (visited : NodeSet) : Nat :=
  (((List.range g.size).filter fun i => !visited.contains i).flatMap g.deps).length

/-- How many steps there are still to take, at most. -/
def potential (g : ImportGraph) (w : Walk) : Nat :=
  w.stack.length + pendingEdges g w.visited

/-- A number that is foreign to the graph has no edges. -/
theorem deps_eq_nil (h : g.size ≤ i) : g.deps i = [] := by
  have hnone : g.node? i = none := Array.getElem?_eq_none h
  unfold deps
  rw [hnone]
  rfl

/-- **Visiting a node takes its edges off.** -/
theorem pendingEdges_insert {visited : NodeSet} (h : visited.contains i = false) :
    pendingEdges g (visited.insert i) + (g.deps i).length = pendingEdges g visited := by
  -- Of the nodes that have not been visited the one is taken out.
  have hfilter : (List.range g.size).filter (fun j => !(visited.insert i).contains j) =
      ((List.range g.size).filter fun j => !visited.contains j).filter (· != i) := by
    rw [List.filter_filter]
    refine List.filter_congr fun j _ => ?_
    rw [Bool.eq_iff_iff]
    rw [Bool.and_eq_true, Bool.not_eq_true', Bool.not_eq_true', contains_eq_false, contains_eq_false,
      mem_insert_visited, not_or, bne_iff_ne]
  have hnodup : ((List.range g.size).filter fun j => !visited.contains j).Nodup :=
    List.nodup_range.filter _
  unfold pendingEdges
  rw [hfilter, ← hnodup.erase_eq_filter]
  by_cases hi : i < g.size
  · have hmem : i ∈ (List.range g.size).filter fun j => !visited.contains j :=
      List.mem_filter.2 ⟨List.mem_range.2 hi, by simp [h]⟩
    have hperm := (List.perm_cons_erase hmem).flatMap_right g.deps
    rw [hperm.length_eq, List.flatMap_cons, List.length_append, Nat.add_comm]
  · have hmem : i ∉ (List.range g.size).filter fun j => !visited.contains j :=
      fun hmem => hi (List.mem_range.1 (List.mem_filter.1 hmem).1)
    rw [List.erase_of_not_mem hmem, deps_eq_nil (Nat.le_of_not_lt hi), List.length_nil,
      Nat.add_zero]

/-- **Each step lowers the potential.** -/
theorem potential_step_lt (h : w.stack ≠ []) : potential g (w.step g) < potential g w := by
  obtain ⟨id, rest, hstack⟩ := List.exists_cons_of_ne_nil h
  unfold Walk.step potential
  rw [hstack]
  simp only
  split
  · simp
  · rename_i hnew
    rw [Bool.not_eq_true] at hnew
    have hpending := pendingEdges_insert (g := g) hnew
    have hlen := List.length_filter_le
      (fun next => !(w.visited.insert id).contains next) (g.deps id)
    simp only [List.length_append, List.length_reverse, List.length_cons]
    omega

/-- With nothing left to visit the walk stays where it is. -/
theorem run_of_stack_nil (h : w.stack = []) (fuel : Nat) : run g fuel w = w := by
  have hstay : w.step g = w := by
    unfold Walk.step
    rw [h]
  induction fuel with
  | zero => rfl
  | succ fuel ih =>
    rw [run, hstay]
    exact ih

theorem stack_run (h : potential g w ≤ fuel) : (run g fuel w).stack = [] := by
  induction fuel generalizing w with
  | zero =>
    have hlen : w.stack.length = 0 := by
      unfold potential at h
      omega
    exact List.eq_nil_of_length_eq_zero hlen
  | succ fuel ih =>
    by_cases hstack : w.stack = []
    · rw [run_of_stack_nil hstack]
      exact hstack
    · have hlt := potential_step_lt (g := g) hstack
      exact ih (by omega)

/-- At the start the potential is what a closure allows. -/
theorem potential_start_le (g : ImportGraph) (seeds : List NodeId) :
    potential g (start g seeds) ≤ seeds.length + g.edgeCount := by
  have hstack : (start g seeds).stack.length ≤ seeds.length := by
    unfold start
    rw [List.length_reverse]
    exact List.length_filter_le ..
  have hedges : pendingEdges g (start g seeds).visited = g.edgeCount := by
    have hall : (List.range g.size).filter (fun i => !(start g seeds).visited.contains i) =
        List.range g.size := by
      refine List.filter_eq_self.2 fun i _ => ?_
      have hnone : (start g seeds).visited.contains i = false :=
        contains_eq_false.2 Std.ExtTreeSet.not_mem_empty
      rw [hnone]
      rfl
    have hmap : (List.range g.size).map g.deps = g.nodes.toList.map SourceFile.deps := by
      refine List.ext_getElem ?_ fun i hi hi' => ?_
      · simp [size]
      · have hlt : i < g.nodes.size := by simpa [size] using hi
        simp [deps, node?, hlt]
    unfold pendingEdges edgeCount
    rw [hall, List.flatMap_def, List.flatMap_def, hmap]
  unfold potential
  omega

end Walk

/-! ## The closure -/

/-- A node of the closure is needed, and what it imports is in the closure too. -/
theorem isAt_closure (g : ImportGraph) (seeds : List NodeId) :
    Walk.IsAt g seeds ⟨g.closure seeds, []⟩ := by
  have h := (Walk.isAt_start g seeds).run (seeds.length + g.edgeCount)
  have hstack := Walk.stack_run (Walk.potential_start_le g seeds)
  rcases hw : Walk.run g (seeds.length + g.edgeCount) (Walk.start g seeds) with ⟨visited, stack⟩
  rw [hw] at h hstack
  have hclosure : g.closure seeds = visited := by
    unfold closure
    rw [hw]
  have hnil : stack = [] := hstack
  rw [hclosure, ← hnil]
  exact h

/-- **The closure is what the seeds reach.** -/
theorem mem_closure_iff : i ∈ g.closure seeds ↔ g.IsNeeded seeds i :=
  (isAt_closure g seeds).mem_visited_iff rfl

/-- **The closure is closed under imports.** -/
theorem mem_closure_of_deps (hi : i ∈ g.closure seeds) (hj : j ∈ g.deps i) :
    j ∈ g.closure seeds :=
  mem_closure_iff.2 ((mem_closure_iff.1 hi).step hj)

end SolVendor.ImportGraph
