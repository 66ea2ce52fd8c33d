import LoopNest.Graph.Transform
/-!
# Graph.Store — graphs kept in five parts

A `Store` keeps a graph the way it is looked up: the nodes in the order in which they came and once more as a set, the
edges as a set, and for every node its children and its parents in a table each.  The same edge is on record three
times, and nothing but the operations keeps these records in step.  An operation that tells something gives it together
with the store that it leaves.
-/
namespace LoopNest

/-- A table of nodes for every node; one without an entry has none. -/
abbrev Adjacency (α : Type) := List (α × List α)

namespace Adjacency

variable {α : Type} [DecidableEq α]

/-- What is on record for `n`. -/
def get (t : Adjacency α) (n : α) : List α := (List.lookup n t).getD []

/-- The table without an entry for `n`. -/
def erase (t : Adjacency α) (n : α) : Adjacency α := t.filter (fun e => decide (e.1 ≠ n))

/-- The table with `l` on record for `n`. -/
def set (t : Adjacency α) (n : α) (l : List α) : Adjacency α := (n, l) :: t.erase n

/-- **The table in which the nodes of a list have forgotten `n`.**  What is on record for `n` itself stays. -/
def forget (t : Adjacency α) (n : α) (ms : List α) : Adjacency α :=
  ms.foldl (fun t m => if m = n then t else t.set m ((t.get m).filter (fun x => decide (x ≠ n)))) t

end Adjacency

/-- **A graph in five parts**: its nodes, oldest first, the set of its nodes, the set of its edges, and for each node the
ends of the edges that start there and the starts of the edges that end there, oldest edge first. -/
structure Store (α : Type) where
  order : List α
  nodes : List α
  edges : List (α × α)
  outgoing : Adjacency α
  incoming : Adjacency α

namespace Store

variable {α : Type} [DecidableEq α]

/-- The store without nodes. -/
def new : Store α := ⟨[], [], [], [], []⟩

/-- Whether `n` is in the set of nodes. -/
def hasNode (s : Store α) (n : α) : Bool := decide (n ∈ s.nodes)

/-- Whether the edge from `u` to `v` is in the set of edges. -/
def hasEdge (s : Store α) (u v : α) : Bool := s.edges.contains (u, v)

def children (s : Store α) (n : α) : List α := s.outgoing.get n

def parents (s : Store α) (n : α) : List α := s.incoming.get n

def nodeCount (s : Store α) : Nat := s.order.length

def edgeCount (s : Store α) : Nat := s.edges.length

def outDegree (s : Store α) (n : α) : Nat := (s.children n).length

def inDegree (s : Store α) (n : α) : Nat := (s.parents n).length

/-- The edges by their starts, read off the table of children. -/
def edgesByNode (s : Store α) : List (α × α) := s.order.flatMap (fun u => (s.children u).map (fun v => (u, v)))

def sources (s : Store α) : List α := s.order.filter (fun n => (s.parents n).isEmpty)

def sinks (s : Store α) : List α := s.order.filter (fun n => (s.children n).isEmpty)

/-- **Adds `n`**, as the youngest node.  Tells whether it was missing. -/
def addNode (s : Store α) (n : α) : Bool × Store α :=
  if s.hasNode n then (false, s) else (true, { s with order := s.order ++ [n], nodes := s.nodes.insert n })

/-- Puts the edge from `u` to `v` on record: in the set, with the children of `u` and with the parents of `v`. -/
def link (s : Store α) (u v : α) : Store α :=
  { s with
    edges := s.edges.insert (u, v)
    outgoing := s.outgoing.set u (s.outgoing.get u ++ [v])
    incoming := s.incoming.set v (s.incoming.get v ++ [u]) }

/-- Takes the edge from `u` to `v` off all three records. -/
def unlink (s : Store α) (u v : α) : Store α :=
  { s with
    edges := s.edges.filter (fun e => decide (e ≠ (u, v)))
    outgoing := s.outgoing.set u ((s.outgoing.get u).filter (fun c => decide (c ≠ v)))
    incoming := s.incoming.set v ((s.incoming.get v).filter (fun p => decide (p ≠ u))) }

/-- **Adds the edge from `u` to `v`**, and its ends where they are missing, `u` before `v`.  Tells whether the edge was
missing. -/
def addEdge (s : Store α) (u v : α) : Bool × Store α :=
  let t := ((s.addNode u).2.addNode v).2
  if t.hasEdge u v then (false, t) else (true, t.link u v)

/-- The store with all the edges of a list, added from left to right. -/
def addEdges (s : Store α) (es : List (α × α)) : Store α := es.foldl (fun t e => (t.addEdge e.1 e.2).2) s

/-- **Removes the edge from `u` to `v`.**  Tells whether it was there. -/
def removeEdge (s : Store α) (u v : α) : Bool × Store α :=
  if s.hasEdge u v then (true, s.unlink u v) else (false, s)

/-- The store without the edges of a list, removed from left to right. -/
def removeEdges (s : Store α) (es : List (α × α)) : Store α := es.foldl (fun t e => (t.removeEdge e.1 e.2).2) s

/-- **Removes `n`**: the edges to its children and the children's records of it, then the edges from its parents and the
parents' records of it, and at last its own records.  Tells whether it was there. -/
def removeNode (s : Store α) (n : α) : Bool × Store α :=
  if s.hasNode n then
    let cs := s.outgoing.get n
    let incoming := s.incoming.forget n cs
    -- a loop at `n` is still on record here, since the children other than `n` were told only
    let ps := incoming.get n
    let outgoing := s.outgoing.forget n ps
    (true, {
      order := s.order.filter (fun m => decide (m ≠ n))
      nodes := s.nodes.filter (fun m => decide (m ≠ n))
      edges := s.edges.filter (fun e =>
        !(cs.map (fun c => (n, c))).contains e && !(ps.map (fun p => (p, n))).contains e)
      outgoing := outgoing.erase n
      incoming := incoming.erase n })
  else (false, s)

/-- **A copy built afresh.** -/
def clone (s : Store α) : Store α := (s.order.foldl (fun t n => (t.addNode n).2) new).addEdges s.edgesByNode

/-- **A store of the nodes that `keep` accepts**, built afresh: the edges of these nodes are added one after the other if
their end is there. -/
def induced (s : Store α) (keep : α → Bool) : Store α :=
  let sub := (s.order.filter keep).foldl (fun t n => (t.addNode n).2) new
  (sub.order.flatMap (fun u => (s.children u).map (fun v => (u, v)))).foldl
    (fun t e => if t.hasNode e.2 then (t.addEdge e.1 e.2).2 else t) sub

/-- The edges that replace the paths of two edges through `n`, by parent and then by child. -/
def detours (s : Store α) (n : α) : List (α × α) :=
  ((s.parents n).filter (fun p => decide (p ≠ n))).flatMap (fun p =>
    ((s.children n).filter (fun c => decide (c ≠ n) && decide (c ≠ p))).map (fun c => (p, c)))

/-- The store without `n`, its parents joined to its children first. -/
def bypass (s : Store α) (n : α) : Store α := ((s.addEdges (s.detours n)).removeNode n).2

/-- **Contraction**: bypasses the nodes that `drop` accepts, oldest first.  Tells their number. -/
def contract (s : Store α) (drop : α → Bool) : Nat × Store α :=
  let dropped := s.order.filter drop
  (dropped.length, dropped.foldl bypass s)

/-- The graph that the order and the table of children tell. -/
def listing (s : Store α) : Graph α := ⟨s.order, s.edgesByNode⟩

/-- **Transitive reduction**: removes the edges to shortcuts, found in the listing.  Tells their number. -/
def reduce (s : Store α) : Nat × Store α := (s.listing.spareEdges.length, s.removeEdges s.listing.spareEdges)

end Store
end LoopNest
