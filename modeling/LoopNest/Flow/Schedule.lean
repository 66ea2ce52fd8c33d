import LoopNest.Graph.Transform
import LoopNest.Problem
/-!
# Flow.Schedule — orders of the operations with every loop in its place

A loop has to come right before everything that depends on it: its required index leaves room behind it for exactly
the nodes that it reaches.  `schedule` finds the order from the nesting of the loops, `scheduleExhaustive` by search,
and `scheduleProblem?` checks a given order.
-/
namespace LoopNest
namespace Flow

/-- The graph without the nodes that stand for no statement, and their number. -/
def prune (g : Graph Node) : Nat × Graph Node := g.contract Node.isBookkeeping

/-- **The index at which a loop has to stand**: all that it reaches comes after it, and all else before. -/
def requiredIndex (g : Graph Node) (loop : Node) : Int := (g.nodeCount : Int) - 1 - (g.descendants loop).length

/-- **What is wrong with an order.** -/
def scheduleProblem? (g : Graph Node) (order : List Node) : Option Problem :=
  if g.isTopologicalOrder order then
    order.zipIdx.findSome? (fun e =>
      if e.1.isLoop then
        let want := requiredIndex g e.1
        if want = (e.2 : Int) then none else some (.misplaced e.1 e.2 want)
      else none)
  else some (.notAnOrder order.length g.nodeCount)

/-- A loop and what it reaches. -/
structure Nest where
  loop : Node
  inside : List Node

/-- The loops of a graph, those with the smaller required index first. -/
def nests (g : Graph Node) : List Nest :=
  (((g.nodes.filter Node.isLoop).map (fun l => (requiredIndex g l, (⟨l, g.descendants l⟩ : Nest)))).mergeSort
    (fun a b => decide (a.1 ≤ b.1))).map Prod.snd

/-- Two neighbouring loops of which the second is not inside the first. -/
def apart? : List Nest → Option (Node × Node)
  | a :: b :: rest => if b.loop ∈ a.inside then apart? (b :: rest) else some (a.loop, b.loop)
  | _ => none

/-- How many loops a node is inside of. -/
def depth (ns : List Nest) (n : Node) : Nat := ns.countP (fun a => decide (n ∈ a.inside))

/-- The statements inside of exactly `k` loops, ordered among themselves. -/
def layer (g : Graph Node) (ns : List Nest) (k : Nat) : Except Problem (List Node) :=
  match (g.induced (fun n => !n.isLoop && decide (depth ns n = k))).topologicalOrder? with
  | some order => .ok order
  | none => .error (.layerCyclic k)

/-- The statements outside of the loops of `rest`, and each of these loops followed by the statements between it and
the next.  `k` loops came before. -/
def layersFrom (g : Graph Node) (ns : List Nest) (k : Nat) : List Nest → Except Problem (List Node)
  | [] => layer g ns k
  | a :: rest =>
    match layer g ns k with
    | .error e => .error e
    | .ok here => (layersFrom g ns (k + 1) rest).map (fun inner => here ++ a.loop :: inner)

/-- **The schedule of a graph**: the loops from the outside in, the statements at each depth between them. -/
def schedule (g : Graph Node) : Except Problem (List Node) :=
  if g.hasCycle then .error .cyclic
  else
    let ns := nests g
    match apart? ns with
    | some (a, b) => .error (.loopsApart a b)
    | none =>
      match layersFrom g ns 0 ns with
      | .error e => .error e
      | .ok order =>
        match scheduleProblem? g order with
        | some e => .error e
        | none => .ok order

/-- **The first topological order in which every loop is in its place.** -/
def scheduleExhaustive (g : Graph Node) : Except Problem (List Node) :=
  let required := (g.nodes.filter Node.isLoop).map (fun l => (l, requiredIndex g l))
  match g.topologicalOrderWhere? (fun i n => (List.lookup n required).all (fun want => decide (want = (i : Int)))) with
  | some order => .ok order
  | none => .error .noOrder

end Flow
end LoopNest
