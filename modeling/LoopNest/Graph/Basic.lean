/-!
# Graph.Basic — directed graphs that keep the order of insertion

A `Graph` is a list of nodes and a list of edges, each in the order in which they were first added.  Children and
parents of a node are read off the edge list, so both come out in insertion order.  No node and no edge is listed
twice, and both ends of an edge are nodes: every operation here keeps these facts.
-/
namespace LoopNest

/-- **A directed graph**: its nodes and its edges, oldest first. -/
structure Graph (α : Type) where
  nodes : List α
  edges : List (α × α)

namespace Graph

variable {α : Type} [DecidableEq α]

/-- The graph without nodes. -/
def empty : Graph α := ⟨[], []⟩

instance : Inhabited (Graph α) := ⟨empty⟩

/-- Whether `n` is a node. -/
def hasNode (g : Graph α) (n : α) : Bool := decide (n ∈ g.nodes)

/-- Whether there is an edge from `u` to `v`. -/
def hasEdge (g : Graph α) (u v : α) : Bool := decide ((u, v) ∈ g.edges)

/-- The graph with the node `n`, which is the youngest one if it is new. -/
def addNode (g : Graph α) (n : α) : Graph α :=
  if g.hasNode n then g else { g with nodes := g.nodes ++ [n] }

/-- The graph with an edge from `u` to `v`; ends that are missing are added, `u` before `v`. -/
def addEdge (g : Graph α) (u v : α) : Graph α :=
  let h := (g.addNode u).addNode v
  if h.hasEdge u v then h else { h with edges := h.edges ++ [(u, v)] }

/-- The graph with all the edges of a list, added from left to right. -/
def addEdges (g : Graph α) (es : List (α × α)) : Graph α := es.foldl (fun h e => h.addEdge e.1 e.2) g

/-- The graph without the edge from `u` to `v`. -/
def removeEdge (g : Graph α) (u v : α) : Graph α :=
  { g with edges := g.edges.filter (fun e => decide (e ≠ (u, v))) }

/-- The graph without the edges of a list, removed from left to right. -/
def removeEdges (g : Graph α) (es : List (α × α)) : Graph α := es.foldl (fun h e => h.removeEdge e.1 e.2) g

/-- The graph without the node `n` and without the edges that touch it. -/
def removeNode (g : Graph α) (n : α) : Graph α where
  nodes := g.nodes.filter (fun m => decide (m ≠ n))
  edges := g.edges.filter (fun e => decide (e.1 ≠ n) && decide (e.2 ≠ n))

/-- The ends of the edges that start at `n`, oldest edge first. -/
def children (g : Graph α) (n : α) : List α := g.edges.filterMap (fun e => if e.1 = n then some e.2 else none)

/-- The starts of the edges that end at `n`, oldest edge first. -/
def parents (g : Graph α) (n : α) : List α := g.edges.filterMap (fun e => if e.2 = n then some e.1 else none)

/-- The number of nodes. -/
def nodeCount (g : Graph α) : Nat := g.nodes.length

/-- The number of edges. -/
def edgeCount (g : Graph α) : Nat := g.edges.length

/-- The number of edges that end at `n`. -/
def inDegree (g : Graph α) (n : α) : Nat := (g.parents n).length

/-- The number of edges that start at `n`. -/
def outDegree (g : Graph α) (n : α) : Nat := (g.children n).length

/-- **The edges grouped by their start**, the starts in node order and each group oldest first. -/
def edgesByNode (g : Graph α) : List (α × α) := g.nodes.flatMap (fun u => (g.children u).map (fun v => (u, v)))

/-- The nodes without a parent. -/
def sources (g : Graph α) : List α := g.nodes.filter (fun n => (g.parents n).isEmpty)

/-- The nodes without a child. -/
def sinks (g : Graph α) : List α := g.nodes.filter (fun n => (g.children n).isEmpty)

/-- **A copy built afresh**: the same nodes, and the edges added again group by group. -/
def clone (g : Graph α) : Graph α := (g.nodes.foldl addNode empty).addEdges g.edgesByNode

/-- **The subgraph on the nodes that `keep` accepts**, with every edge between two of them, added group by group. -/
def induced (g : Graph α) (keep : α → Bool) : Graph α :=
  let kept := g.nodes.filter keep
  ⟨kept, kept.flatMap (fun u => ((g.children u).filter (fun v => decide (v ∈ kept))).map (fun v => (u, v)))⟩

end Graph

/-- The last index at which `a` stands in `l`. -/
def lastIndex? {α : Type} [DecidableEq α] : List α → α → Option Nat
  | [], _ => none
  | b :: l, a =>
    match lastIndex? l a with
    | some i => some (i + 1)
    | none => if b = a then some 0 else none

end LoopNest
