import LoopNest.Graph.Basic
/-!
# Graph.Order — orders in which every edge points forward

A `Worklist` counts for every node the parents that are not placed yet, and lists the nodes that wait for none.  Placing
the first of these again and again gives an order (`placing`); when nodes that become ready go by age, it is the
topological order that is least by insertion (`topologicalOrder?`).  An `Agenda` lists the nodes still to be placed, in
node order, each with those of its parents that are not placed yet; branching over every ready node gives all orders
(`ordersWhere`).
-/
namespace LoopNest

/-- **A worklist**: how many parents each node still waits for, and the nodes that wait for none, next one first. -/
structure Worklist (α : Type) where
  missing : List (α × Nat)
  ready : List α

namespace Worklist

variable {α : Type}

/-- The list with `c` put in front of the first member that it goes ahead of. -/
def put (ahead : α → α → Bool) (c : α) (l : List α) : List α :=
  l.takeWhile (fun x => !ahead c x) ++ c :: l.dropWhile (fun x => !ahead c x)

theorem length_put (ahead : α → α → Bool) (c : α) (l : List α) : (put ahead c l).length = l.length + 1 := by
  have h := congrArg List.length (List.takeWhile_append_dropWhile (p := fun x => !ahead c x) (l := l))
  simp only [put, List.length_append, List.length_cons] at h ⊢
  omega

variable [DecidableEq α]

/-- The counts with one parent of `c` less to wait for. -/
def lower (missing : List (α × Nat)) (c : α) : List (α × Nat) :=
  missing.map (fun e => if e.1 = c then (e.1, e.2 - 1) else e)

/-- **The worklist after a parent of `c` was placed**: if it was the last one, `c` is ready now. -/
def release (ahead : α → α → Bool) (w : Worklist α) (c : α) : Worklist α where
  missing := lower w.missing c
  ready := if List.lookup c w.missing = some 1 then put ahead c w.ready else w.ready

/-- How many nodes wait or are ready. -/
def load (w : Worklist α) : Nat := w.missing.countP (fun e => decide (0 < e.2)) + w.ready.length

/-- A node whose last parent is placed waits no more. -/
theorem countP_lower (c : α) : ∀ missing : List (α × Nat),
    (lower missing c).countP (fun e => decide (0 < e.2)) + (if List.lookup c missing = some 1 then 1 else 0) ≤
      missing.countP (fun e => decide (0 < e.2))
  | [] => by simp [lower]
  | (x, k) :: missing => by
    have ih := countP_lower c missing
    by_cases hc : x = c
    · subst hc
      have hle : (lower missing x).countP (fun e => decide (0 < e.2)) ≤ missing.countP (fun e => decide (0 < e.2)) := by
        omega
      rw [List.lookup_cons_self, lower, List.map_cons, if_pos rfl, List.countP_cons, List.countP_cons, ← lower]
      simp only [decide_eq_true_eq, Option.some.injEq]
      split <;> split <;> split <;> omega
    · have hl : List.lookup c ((x, k) :: missing) = List.lookup c missing := by
        rw [List.lookup_cons, beq_eq_false_iff_ne.2 (Ne.symm hc)]
      rw [hl, lower, List.map_cons, if_neg hc, List.countP_cons, List.countP_cons, ← lower]
      omega

theorem load_release_le (ahead : α → α → Bool) (w : Worklist α) (c : α) : (w.release ahead c).load ≤ w.load := by
  have h := countP_lower c w.missing
  unfold release load
  dsimp only
  split at h
  · rename_i h1
    rw [if_pos h1, length_put]
    omega
  · rename_i h1
    rw [if_neg h1]
    omega

theorem load_foldl_release_le (ahead : α → α → Bool) : ∀ (cs : List α) (w : Worklist α),
    (cs.foldl (release ahead) w).load ≤ w.load
  | [], _ => Nat.le_refl _
  | c :: cs, w => Nat.le_trans (load_foldl_release_le ahead cs _) (load_release_le ahead w c)

end Worklist

/-- Nodes to be placed, each with the parents it still waits for. -/
abbrev Agenda (α : Type) := List (α × List α)

namespace Agenda

variable {α : Type} [DecidableEq α]

/-- Whether an entry waits for nothing. -/
def ready (e : α × List α) : Bool := e.2.isEmpty

/-- **The agenda after `n` was placed**: nothing waits for it any more. -/
def place (a : Agenda α) (n : α) : Agenda α :=
  (a.filter (fun e => decide (e.1 ≠ n))).map (fun e => (e.1, e.2.filter (fun p => decide (p ≠ n))))

theorem length_place_lt {a : Agenda α} {e : α × List α} (h : e ∈ a) : (a.place e.1).length < a.length := by
  rw [place, List.length_map]
  exact List.length_filter_lt_length_iff_exists.2 ⟨e, h, by simp⟩

/-- **The first `limit` ways to place everything**, in lexicographic order, in which `fits` accepts every node at its
index.  `i` is the index of the next node. -/
def ordersWhere (fits : Nat → α → Bool) (limit i : Nat) (a : Agenda α) : List (List α) :=
  if a.isEmpty then if limit = 0 then [] else [[]]
  else
    (a.filter (fun e => ready e && fits i e.1)).attach.foldl
      (fun found e =>
        if limit ≤ found.length then found
        else found ++ (ordersWhere fits (limit - found.length) (i + 1) (a.place e.1.1)).map (fun o => e.1.1 :: o))
      []
termination_by a.length
decreasing_by exact length_place_lt (List.mem_filter.1 e.2).1

end Agenda

namespace Graph

variable {α : Type} [DecidableEq α]

/-- The worklist before anything is placed. -/
def worklist (g : Graph α) : Worklist α := ⟨g.nodes.map (fun n => (n, g.inDegree n)), g.sources⟩

/-- **Working off**: places the next ready node and releases its children, while there is one.  Gives the placed
nodes. -/
def workOff (g : Graph α) (ahead : α → α → Bool) (w : Worklist α) : List α :=
  match w with
  | ⟨_, []⟩ => []
  | ⟨missing, n :: rest⟩ => n :: workOff g ahead ((g.children n).foldl (Worklist.release ahead) ⟨missing, rest⟩)
termination_by w.load
decreasing_by exact Nat.lt_of_le_of_lt (Worklist.load_foldl_release_le ahead _ _) (by simp [Worklist.load])

/-- The nodes that can be placed, where a node that becomes ready goes ahead of those that `ahead` says. -/
def placing (g : Graph α) (ahead : α → α → Bool) : List α := g.workOff ahead g.worklist

/-- Whether `m` is as old as `n` or older. -/
def older (g : Graph α) (m n : α) : Bool := decide (g.nodes.idxOf m ≤ g.nodes.idxOf n)

/-- **The topological order least by insertion**: of the nodes that may come next, always the oldest.  There is none
when the graph has a cycle, on which no node is ever ready. -/
def topologicalOrder? (g : Graph α) : Option (List α) :=
  let order := g.placing g.older
  if order.length = g.nodes.length then some order else none

/-- Every node with all of its parents. -/
def agenda (g : Graph α) : Agenda α := g.nodes.map (fun n => (n, g.parents n))

/-- The first `limit` topological orders, in lexicographic order by insertion. -/
def topologicalOrders (g : Graph α) (limit : Nat) : List (List α) :=
  g.agenda.ordersWhere (fun _ _ => true) limit 0

/-- The first topological order in which `fits` accepts every node at its index. -/
def topologicalOrderWhere? (g : Graph α) (fits : Nat → α → Bool) : Option (List α) :=
  (g.agenda.ordersWhere fits 1 0).head?

/-- **Whether a list is a topological order**: it has every node once and nothing else, and every edge points
forward. -/
def isTopologicalOrder (g : Graph α) (order : List α) : Bool :=
  decide (order.length = g.nodes.length) && decide order.Nodup &&
    g.nodes.all (fun n => decide (n ∈ order)) &&
    g.edges.all (fun e => decide (order.idxOf e.1 < order.idxOf e.2))

end Graph
end LoopNest
