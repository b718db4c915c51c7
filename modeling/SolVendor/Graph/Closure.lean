import SolVendor.Graph.Basic
/-!
# Graph — closure under imports

The closure of some seeds is what an installation of them needs: the seeds
and all that they import, directly or not. It is computed by a walk with a
stack of nodes to visit and a set of visited ones. A node can be on the
stack several times, but it is expanded only once, so the walk takes no
more steps than there are seeds and edges; `closure` allows it that many.
-/

namespace SolVendor.ImportGraph

/-- The state of the walk: the nodes visited, and those still to visit, next one first. -/
structure Walk where
  visited : NodeSet
  stack : List NodeId

namespace Walk

/-- Before the first step: nothing is visited, and the seeds that belong to the graph are on the
stack, the last one on top. -/
def start (g : ImportGraph) (seeds : List NodeId) : Walk :=
  ⟨∅, (seeds.filter fun id => (g.node? id).isSome).reverse⟩

/-- Take the next node from the stack. If it is new, visit it and put the nodes it imports on the
stack, those visited already left out. -/
def step (g : ImportGraph) (w : Walk) : Walk :=
  match w.stack with
  | [] => w
  | id :: rest =>
    if w.visited.contains id then { w with stack := rest }
    else
      let visited := w.visited.insert id
      ⟨visited, ((g.deps id).filter fun next => !visited.contains next).reverse ++ rest⟩

/-- Take so many steps. -/
def run (g : ImportGraph) : Nat → Walk → Walk
  | 0, w => w
  | fuel + 1, w => run g fuel (w.step g)

end Walk

/-- The seeds that belong to the graph, and all nodes that they import, directly or not. -/
def closure (g : ImportGraph) (seeds : List NodeId) : NodeSet :=
  (Walk.run g (seeds.length + g.edgeCount) (Walk.start g seeds)).visited

end SolVendor.ImportGraph
