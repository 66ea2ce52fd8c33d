import Mathlib
import LoopNest.Proofs.Graph.Storing
import LoopNest.Proofs.Graph.Cloning
/-!
# Proofs.Graph.Holding — a store does what a graph does

A store holds a graph when its parts are in step and the nodes, the children and the parents that it tells are those of
the graph (`Store.Holds`).  Every operation keeps this and tells the same on both sides (`Holds.perform`,
`Holds.report_eq`), so a run on a new store and the same run on the empty graph go side by side, and the parts of the
store are in step all the way (`parts_in_step`).
-/
namespace LoopNest

/-! ## Graphs seen from the parents -/

namespace Graph

variable {α : Type} [DecidableEq α]

theorem parents_eq_endsFrom (g : Graph α) (w : α) : g.parents w = endsFrom (g.edges.map Prod.swap) w := by
  simp [parents, endsFrom, List.filterMap_map]

theorem children_append (g : Graph α) (ns : List α) (u v w : α) :
    (Graph.mk ns (g.edges ++ [(u, v)])).children w = if w = u then g.children u ++ [v] else g.children w := by
  change endsFrom (g.edges ++ [(u, v)]) w = _
  rw [endsFrom_append, endsFrom_cons]
  by_cases hw : w = u
  · subst hw
    rw [if_pos rfl, if_pos rfl]
    rfl
  · rw [if_neg (Ne.symm hw), if_neg hw]
    exact List.append_nil _

theorem parents_append (g : Graph α) (ns : List α) (u v w : α) :
    (Graph.mk ns (g.edges ++ [(u, v)])).parents w = if w = v then g.parents v ++ [u] else g.parents w := by
  have h := children_append ⟨g.nodes, g.edges.map Prod.swap⟩ ns v u w
  simp only [parents_eq_endsFrom, List.map_append]
  exact h

theorem parents_filter (g : Graph α) (ns : List α) (q : α × α → Bool) (w : α) :
    (Graph.mk ns (g.edges.filter q)).parents w = (g.parents w).filter (fun u => q (u, w)) := by
  have hswap : (g.edges.filter q).map Prod.swap = (g.edges.map Prod.swap).filter (q ∘ Prod.swap) := by
    rw [List.filter_map]
    rfl
  rw [parents_eq_endsFrom, parents_eq_endsFrom, hswap, endsFrom_filter]
  rfl

theorem parents_removeEdge (g : Graph α) (u v w : α) :
    (g.removeEdge u v).parents w = (g.parents w).filter (fun x => decide ((x, w) ≠ (u, v))) :=
  g.parents_filter _ _ w

theorem parents_removeNode (g : Graph α) (n w : α) :
    (g.removeNode n).parents w = (g.parents w).filter (fun x => decide (x ≠ n) && decide (w ≠ n)) :=
  g.parents_filter _ _ w

/-- The subgraph on some of the nodes, added node by node and edge by edge. -/
theorem WellFormed.induced_eq_addEdges {g : Graph α} (hg : g.WellFormed) (keep : α → Bool) : g.induced keep =
    ((g.nodes.filter keep).foldl Graph.addNode empty).addEdges (g.induced keep).edges := by
  have hk := hg.induced keep
  have hadded : (Graph.mk (g.nodes.filter keep) []).addEdges (g.induced keep).edges = g.induced keep :=
    addEdges_eq hk.nodup_edges fun e he => ⟨hk.start_mem he, hk.end_mem he⟩
  rw [foldl_addNode_eq (g := empty) hk.nodup_nodes]
  exact hadded.symm

end Graph

/-! ## Stores hold graphs -/

namespace Store

open LoopNest.Graph (Operation Report appendNew)

variable {α : Type} [DecidableEq α] {s t : Store α} {g : Graph α} {n m u v w : α}

/-- **A store holds a graph**: its parts are in step, and the nodes and the neighbours of each are those of the graph, in
the same order. -/
structure Holds (s : Store α) (g : Graph α) : Prop where
  inStep : s.InStep
  order : s.order = g.nodes
  children : ∀ n, s.children n = g.children n
  parents : ∀ n, s.parents n = g.parents n

theorem Holds.mem_nodes (h : s.Holds g) : n ∈ s.nodes ↔ n ∈ g.nodes := by
  rw [h.inStep.mem_nodes, h.order]

theorem Holds.mem_edges (h : s.Holds g) : (u, v) ∈ s.edges ↔ g.Edge u v := by
  rw [← h.inStep.mem_children, h.children, Graph.mem_children]

theorem Holds.hasNode_eq (h : s.Holds g) (n : α) : s.hasNode n = g.hasNode n := by
  rw [Bool.eq_iff_iff, hasNode_iff, h.mem_nodes, Graph.hasNode_iff]

theorem Holds.hasEdge_eq (h : s.Holds g) (u v : α) : s.hasEdge u v = g.hasEdge u v := by
  rw [Bool.eq_iff_iff, hasEdge_iff, h.mem_edges, Graph.hasEdge_iff]

theorem Holds.edgesByNode_eq (h : s.Holds g) : s.edgesByNode = g.edgesByNode := by
  rw [edgesByNode, Graph.edgesByNode, h.order]
  simp only [h.children]

theorem holds_new : (new : Store α).Holds Graph.empty := ⟨inStep_new, rfl, fun _ => rfl, fun _ => rfl⟩

theorem Holds.addNode (h : s.Holds g) (n : α) : (s.addNode n).2.Holds (g.addNode n) := by
  by_cases hn : n ∈ s.nodes
  · rw [addNode_of_mem hn, Graph.addNode_of_mem (h.mem_nodes.1 hn)]
    exact h
  · have hg : g.addNode n = ⟨g.nodes ++ [n], g.edges⟩ := by simp [Graph.addNode, Graph.hasNode, mt h.mem_nodes.2 hn]
    refine ⟨h.inStep.addNode n, ?_, ?_, ?_⟩ <;> rw [addNode_of_not_mem hn, hg]
    · exact congrArg (· ++ [n]) h.order
    · exact h.children
    · exact h.parents

theorem Holds.link (h : s.Holds g) (hin : (s.link u v).InStep) :
    (s.link u v).Holds ⟨g.nodes, g.edges ++ [(u, v)]⟩ where
  inStep := hin
  order := h.order
  children w := by rw [children_link, Graph.children_append, h.children, h.children]
  parents w := by rw [parents_link, Graph.parents_append, h.parents, h.parents]

theorem Holds.addEdge (h : s.Holds g) (u v : α) : (s.addEdge u v).2.Holds (g.addEdge u v) := by
  have ht := (h.addNode u).addNode v
  have hin := h.inStep.addEdge u v
  unfold Store.addEdge at hin ⊢
  unfold Graph.addEdge
  dsimp only at hin ⊢
  rw [← ht.hasEdge_eq]
  by_cases hold : ((s.addNode u).2.addNode v).2.hasEdge u v = true
  · rw [if_pos hold, if_pos hold]
    exact ht
  · rw [if_neg hold] at hin
    rw [if_neg hold, if_neg hold]
    exact ht.link hin

theorem Holds.removeEdge (h : s.Holds g) (u v : α) : (s.removeEdge u v).2.Holds (g.removeEdge u v) where
  inStep := h.inStep.removeEdge u v
  order := by rw [order_removeEdge, h.order]; rfl
  children w := by rw [h.inStep.children_removeEdge, Graph.children_removeEdge, h.children]
  parents w := by rw [h.inStep.parents_removeEdge, Graph.parents_removeEdge, h.parents]

theorem Holds.removeNode (h : s.Holds g) (n : α) : (s.removeNode n).2.Holds (g.removeNode n) where
  inStep := h.inStep.removeNode n
  order := by rw [h.inStep.order_removeNode, h.order]; rfl
  children w := by
    rw [h.inStep.children_removeNode, Graph.children_removeNode, h.children]
    simp only [Bool.and_comm]
  parents w := by rw [h.inStep.parents_removeNode, Graph.parents_removeNode, h.parents]

theorem Holds.foldl_addNode : ∀ (ns : List α) {s : Store α} {g : Graph α}, s.Holds g →
    (ns.foldl (fun t n => (t.addNode n).2) s).Holds (ns.foldl Graph.addNode g)
  | [], _, _, h => h
  | n :: ns, _, _, h => Holds.foldl_addNode ns (h.addNode n)

theorem Holds.addEdges : ∀ (es : List (α × α)) {s : Store α} {g : Graph α}, s.Holds g →
    (s.addEdges es).Holds (g.addEdges es)
  | [], _, _, h => h
  | e :: es, _, _, h => Holds.addEdges es (h.addEdge e.1 e.2)

theorem Holds.removeEdges : ∀ (es : List (α × α)) {s : Store α} {g : Graph α}, s.Holds g →
    (s.removeEdges es).Holds (g.removeEdges es)
  | [], _, _, h => h
  | e :: es, _, _, h => Holds.removeEdges es (h.removeEdge e.1 e.2)

/-! ### Copies, subgraphs, contraction and reduction -/

theorem Holds.clone (h : s.Holds g) : s.clone.Holds g.clone := by
  unfold Store.clone Graph.clone
  rw [h.order, h.edgesByNode_eq]
  exact (holds_new.foldl_addNode _).addEdges _

/-- Adding those edges of a list whose end is there, if the starts of all of them are. -/
theorem Holds.addEdgesWithin : ∀ (es : List (α × α)) {s : Store α} {g : Graph α}, s.Holds g →
    (∀ e ∈ es, e.1 ∈ g.nodes) → (es.foldl (fun t e => if t.hasNode e.2 then (t.addEdge e.1 e.2).2 else t) s).Holds
      (g.addEdges (es.filter (fun e => decide (e.2 ∈ g.nodes))))
  | [], _, _, h, _ => h
  | e :: es, s, g, h, hstart => by
    have hrest : ∀ f ∈ es, f.1 ∈ g.nodes := fun f hf => hstart f (List.mem_cons_of_mem _ hf)
    rw [List.foldl_cons, h.hasNode_eq, List.filter_cons]
    by_cases he : e.2 ∈ g.nodes
    · rw [if_pos (Graph.hasNode_iff.2 he), if_pos (decide_eq_true he)]
      -- both ends are nodes, so the rest of the list meets the same nodes
      have hnodes : (g.addEdge e.1 e.2).nodes = g.nodes := by
        rw [Graph.nodes_addEdge, Graph.addNode_of_mem (hstart e List.mem_cons_self), Graph.addNode_of_mem he]
      have ih := Holds.addEdgesWithin es (h.addEdge e.1 e.2) (by rwa [hnodes])
      rw [hnodes] at ih
      exact ih
    · rw [if_neg (mt Graph.hasNode_iff.1 he), if_neg (by simpa using he)]
      exact Holds.addEdgesWithin es h hrest

theorem Holds.induced (h : s.Holds g) (hg : g.WellFormed) (keep : α → Bool) :
    (s.induced keep).Holds (g.induced keep) := by
  have hsub := holds_new.foldl_addNode (g.nodes.filter keep)
  have hnodes : ((g.nodes.filter keep).foldl Graph.addNode Graph.empty).nodes = g.nodes.filter keep := by
    rw [Graph.foldl_addNode_eq (g := Graph.empty) (hg.induced keep).nodup_nodes]
    rfl
  rw [hg.induced_eq_addEdges]
  unfold Store.induced
  dsimp only
  rw [h.order, hsub.order, hnodes]
  have hwithin := hsub.addEdgesWithin ((g.nodes.filter keep).flatMap (fun u => (s.children u).map (fun v => (u, v)))) ?_
  · have hes : ((g.nodes.filter keep).flatMap (fun u => (s.children u).map (fun v => (u, v)))).filter
        (fun e => decide (e.2 ∈ g.nodes.filter keep)) = (g.induced keep).edges := by
      rw [List.filter_flatMap]
      simp only [List.filter_map, h.children]
      rfl
    rw [hnodes, hes] at hwithin
    exact hwithin
  · intro e he
    obtain ⟨u, hu, hmem⟩ := List.mem_flatMap.1 he
    obtain ⟨v, -, rfl⟩ := List.mem_map.1 hmem
    rwa [hnodes]

theorem Holds.bypass (h : s.Holds g) (n : α) : (s.bypass n).Holds (g.bypass n) := by
  have hdetours : s.detours n = g.detours n := by
    rw [detours, Graph.detours, h.parents, h.children]
  rw [Store.bypass, Graph.bypass, hdetours]
  exact (h.addEdges _).removeNode n

theorem Holds.foldl_bypass : ∀ (ns : List α) {s : Store α} {g : Graph α}, s.Holds g →
    (ns.foldl Store.bypass s).Holds (ns.foldl Graph.bypass g)
  | [], _, _, h => h
  | n :: ns, _, _, h => Holds.foldl_bypass ns (h.bypass n)

/-- The listing is the graph with its edges grouped, which has the same shortcuts. -/
theorem Holds.spareEdges_listing (h : s.Holds g) (hg : g.WellFormed) : s.listing.spareEdges = g.spareEdges := by
  have hlisting : s.listing = g.clone := by
    rw [listing, hg.clone_eq, h.order, h.edgesByNode_eq]
  rw [hlisting, hg.matches_clone.spareEdges_eq]

/-! ## Runs of operations -/

/-- **What an operation tells and leaves when it is done to a store.** -/
def perform (s : Store α) : Operation α → Report α × Store α
  | .addNode n => (.found (s.addNode n).1, (s.addNode n).2)
  | .addEdge u v => (.found (s.addEdge u v).1, (s.addEdge u v).2)
  | .removeEdge u v => (.found (s.removeEdge u v).1, (s.removeEdge u v).2)
  | .removeNode n => (.found (s.removeNode n).1, (s.removeNode n).2)
  | .clone => (.made s.clone.order s.clone.edgesByNode, s.clone)
  | .induced keep => (.made (s.induced keep).order (s.induced keep).edgesByNode, s.induced keep)
  | .contract drop => (.removed (s.contract drop).1, (s.contract drop).2)
  | .reduce => (.removed s.reduce.1, s.reduce.2)

/-- The store that operations make from the new one, the first operation first. -/
def run (ops : List (Operation α)) : Store α := ops.foldl (fun s o => (s.perform o).2) new

/-- **Every operation does to a store what it does to the graph that the store holds.** -/
theorem Holds.perform (h : s.Holds g) (hg : g.WellFormed) (o : Operation α) : (s.perform o).2.Holds (o.apply g) := by
  cases o with
  | addNode n => exact h.addNode n
  | addEdge u v => exact h.addEdge u v
  | removeEdge u v => exact h.removeEdge u v
  | removeNode n => exact h.removeNode n
  | clone => exact h.clone
  | induced keep => exact h.induced hg keep
  | contract drop =>
    have hfold := h.foldl_bypass (g.nodes.filter drop)
    rw [← h.order] at hfold
    simpa only [Store.perform, Store.contract, Operation.apply, Graph.contract, h.order] using hfold
  | reduce =>
    have hfold := h.removeEdges g.spareEdges
    simpa only [Store.perform, Store.reduce, Operation.apply, Graph.reduce, h.spareEdges_listing hg] using hfold

/-- **And it tells the same.** -/
theorem Holds.report_eq (h : s.Holds g) (hg : g.WellFormed) (o : Operation α) : (s.perform o).1 = o.report g := by
  cases o with
  | addNode n =>
    rw [Store.perform, Operation.report, ← h.hasNode_eq, Store.addNode]
    cases s.hasNode n <;> rfl
  | addEdge u v =>
    have hedge : ((s.addNode u).2.addNode v).2.hasEdge u v = g.hasEdge u v := by
      rw [((h.addNode u).addNode v).hasEdge_eq, Graph.hasEdge, Graph.edges_addNode, Graph.edges_addNode, Graph.hasEdge]
    rw [Store.perform, Operation.report, Store.addEdge, ← hedge]
    dsimp only
    cases ((s.addNode u).2.addNode v).2.hasEdge u v <;> rfl
  | removeEdge u v =>
    rw [Store.perform, Operation.report, ← h.hasEdge_eq, Store.removeEdge]
    cases s.hasEdge u v <;> rfl
  | removeNode n =>
    rw [Store.perform, Operation.report, ← h.hasNode_eq, Store.removeNode]
    cases s.hasNode n <;> rfl
  | clone => rw [Store.perform, Operation.report, h.clone.order, h.clone.edgesByNode_eq]
  | induced keep =>
    rw [Store.perform, Operation.report, (h.induced hg keep).order, (h.induced hg keep).edgesByNode_eq]
  | contract drop => rw [Store.perform, Operation.report, Store.contract, Graph.contract, h.order]
  | reduce => rw [Store.perform, Operation.report, Store.reduce, Graph.reduce, h.spareEdges_listing hg]

theorem Holds.foldl_perform : ∀ (ops : List (Operation α)) {s : Store α} {g : Graph α}, s.Holds g → g.WellFormed →
    (ops.foldl (fun s o => (s.perform o).2) s).Holds (ops.foldl Operation.apply g)
  | [], _, _, h, _ => h
  | o :: ops, _, _, h, hg => Holds.foldl_perform ops (h.perform hg o) (hg.apply o)

/-- **A run on a store makes a store of what the run makes of a graph.** -/
theorem holds_run (ops : List (Operation α)) : (run ops).Holds (Graph.run ops) :=
  holds_new.foldl_perform ops Graph.wellFormed_empty

/-- **All five parts of a store agree, whatever was done to it.**  No node is listed twice, and the set has the nodes that
are listed.  The set of edges, the children and the parents tell the same: a child and a parent are on record once for
each edge, both ends of an edge are nodes, and what is no node has neither.  The edges are as many as the out-degrees,
the in-degrees and the listing by starts say.  Adding a node or an edge again changes no part.  And the store holds what
the same operations make of a graph, and tells the same from then on. -/
theorem parts_in_step {ops : List (Operation α)} {s : Store α} (hs : run ops = s) :
    s.order.Nodup ∧ (∀ n, n ∈ s.nodes ↔ n ∈ s.order) ∧ s.nodes.length = s.order.length ∧
    (∀ n, (s.children n).Nodup ∧ (s.parents n).Nodup) ∧
    (∀ u v, ((u, v) ∈ s.edges ↔ v ∈ s.children u) ∧ ((u, v) ∈ s.edges ↔ u ∈ s.parents v) ∧
      ((u, v) ∈ s.edges → u ∈ s.nodes ∧ v ∈ s.nodes)) ∧
    (∀ n, n ∉ s.nodes → s.children n = [] ∧ s.parents n = []) ∧
    s.edgeCount = (s.order.map s.outDegree).sum ∧ s.edgeCount = (s.order.map s.inDegree).sum ∧
    s.edgeCount = s.edgesByNode.length ∧
    (∀ n ∈ s.nodes, s.addNode n = (false, s)) ∧ (∀ u v, (u, v) ∈ s.edges → s.addEdge u v = (false, s)) ∧
    s.Holds (Graph.run ops) ∧ ∀ o, (s.perform o).1 = o.report (Graph.run ops) := by
  subst hs
  have hholds := holds_run ops
  have h := hholds.inStep
  have hperm : (run ops).nodes.Perm (run ops).order :=
    (List.perm_ext_iff_of_nodup h.nodup_nodes h.nodup_order).2 fun _ => h.mem_nodes
  exact ⟨h.nodup_order, fun _ => h.mem_nodes, hperm.length_eq, fun n => ⟨h.nodup_children n, h.nodup_parents n⟩,
    fun u v => ⟨h.mem_children.symm, h.mem_parents.symm, fun he => ⟨h.start_mem he, h.end_mem he⟩⟩,
    fun n hn => h.no_neighbours hn, h.edgeCount_eq_outDegrees, h.edgeCount_eq_inDegrees,
    h.perm_edgesByNode.length_eq, fun n hn => addNode_of_mem hn, fun u v he => h.addEdge_of_mem he, hholds,
    hholds.report_eq (Graph.WellFormed.foldl_apply ops Graph.wellFormed_empty)⟩

/-- A node with a loop, on a cycle of two, that was removed and came back, and whose neighbour was contracted. -/
def returned : Store Nat := run [.addEdge 1 2, .addEdge 2 1, .addEdge 2 2, .addEdge 2 3, .removeNode 2, .addEdge 3 4,
  .addEdge 4 2, .addEdge 2 3, .addEdge 2 2, .contract (fun n => decide (n = 4))]

/-- It has its new edges only, of which the one to itself is found from both of its ends. -/
theorem parts_in_step_returned : 4 ∉ returned.nodes ∧ returned.children 4 = [] ∧ returned.parents 2 = [2, 3] ∧
    (2, 2) ∈ returned.edges ∧ 2 ∈ returned.children 2 ∧ 2 ∈ returned.parents 2 ∧ returned.edgeCount = 3 ∧
    (returned.order.map returned.outDegree).sum = 3 ∧ (returned.order.map returned.inDegree).sum = 3 ∧
    returned.addEdge 2 2 = (false, returned) := by
  have hgone : 4 ∉ returned.nodes := by decide +kernel
  have hloop : (2, 2) ∈ returned.edges := by decide +kernel
  have hcount : returned.edgeCount = 3 := by decide +kernel
  obtain ⟨-, -, -, -, hedge, hout, hstart, hend, -, -, hagain, -⟩ := parts_in_step (s := returned) rfl
  exact ⟨hgone, (hout 4 hgone).1, by decide +kernel, hloop, (hedge 2 2).1.1 hloop, (hedge 2 2).2.1.1 hloop, hcount,
    hstart ▸ hcount, hend ▸ hcount, hagain 2 2 hloop⟩

end Store
end LoopNest
