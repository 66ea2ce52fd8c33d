import LoopNest.Graph.Search
import LoopNest.Graph.Order
/-!
# Graph.Transform — contraction, transitive reduction and layers

`contract` removes nodes and joins their parents to their children, `reduce` removes the edges that a longer path
implies, and `layers` gives every node the length of a longest path that ends there.
-/
namespace LoopNest
namespace Graph

variable {α : Type} [DecidableEq α]

/-- The edges that replace the paths of two edges through `n`, by parent and then by child.  A path that leads back
to where it started is not replaced. -/
def detours (g : Graph α) (n : α) : List (α × α) :=
  ((g.parents n).filter (fun p => decide (p ≠ n))).flatMap (fun p =>
    ((g.children n).filter (fun c => decide (c ≠ n) && decide (c ≠ p))).map (fun c => (p, c)))

/-- The graph without `n`, its parents joined to its children. -/
def bypass (g : Graph α) (n : α) : Graph α := (g.addEdges (g.detours n)).removeNode n

/-- **Contraction**: bypasses the nodes that `drop` accepts, oldest first.  Gives their number and what is left. -/
def contract (g : Graph α) (drop : α → Bool) : Nat × Graph α :=
  let dropped := g.nodes.filter drop
  (dropped.length, dropped.foldl bypass g)

/-- The children of `u` that some other child of `u` reaches. -/
def shortcuts (g : Graph α) (u : α) : List α :=
  let below := (g.children u).map (fun m => (m, g.descendants m))
  (g.children u).filter (fun v =>
    below.any (fun b => decide (b.1 ≠ v) && decide (b.1 ≠ u) && decide (v ∈ b.2)))

/-- The edges to shortcuts, by their start and then by their end. -/
def spareEdges (g : Graph α) : List (α × α) := g.nodes.flatMap (fun u => (g.shortcuts u).map (fun v => (u, v)))

/-- **Transitive reduction**: removes the edges to shortcuts, all of which are found before the first is removed.  Gives
their number and what is left. -/
def reduce (g : Graph α) : Nat × Graph α := (g.spareEdges.length, g.removeEdges g.spareEdges)

/-- The layers after those of the children of `n` were pushed below that of `n`. -/
def pushBelow (g : Graph α) (layers : List (α × Nat)) (n : α) : List (α × Nat) :=
  let below := (List.lookup n layers).getD 0 + 1
  layers.map (fun e => if e.1 ∈ g.children n then (e.1, max e.2 below) else e)

/-- **The layer of every node**, in node order: all nodes start in layer 0, and each one that can be placed, those
ready longest first, pushes its children below it.  A node that is never ready pushes nothing. -/
def layers (g : Graph α) : List (α × Nat) :=
  (g.placing (fun _ _ => false)).foldl g.pushBelow (g.nodes.map (fun n => (n, 0)))

end Graph
end LoopNest
