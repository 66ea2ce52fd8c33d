import Mathlib
import LoopNest.Proofs.Graph.Kahn
/-!
# Proofs.Graph.Likeness — graphs that answer alike

Two graphs match when they have the same nodes and every node has the same children, in the same order (`Matches`).
The edges of different nodes may have been added in another order, and so the parents of a node may be listed in another
order.  No operation shows this: contraction goes through the parents of a node, but adds to each of them the same
children (`endsFrom_detours`), so matching graphs go on matching (`Matches.apply`), and everything that is asked of
them has the same answer (`Matches.sameAnswers`).
-/
namespace LoopNest
namespace Graph

variable {α : Type} [DecidableEq α] {g k : Graph α} {u v w n : α}

/-- **The same nodes, and the same children of each in the same order.** -/
structure Matches (g k : Graph α) : Prop where
  nodes : g.nodes = k.nodes
  children : ∀ n, g.children n = k.children n

theorem Matches.edge_eq (h : g.Matches k) : g.Edge = k.Edge := by
  funext u v
  rw [← mem_children, ← mem_children, h.children]

theorem Matches.hasNode_eq (h : g.Matches k) (n : α) : g.hasNode n = k.hasNode n := by
  rw [hasNode, hasNode, h.nodes]

theorem Matches.hasEdge_eq (h : g.Matches k) (u v : α) : g.hasEdge u v = k.hasEdge u v := by
  rw [Bool.eq_iff_iff, hasEdge_iff, hasEdge_iff, h.edge_eq]

/-! ## Adding and removing edges, seen from the children -/

/-- The ends of the edges of a list that start at `w`, in order. -/
def endsFrom (es : List (α × α)) (w : α) : List α := es.filterMap (fun e => if e.1 = w then some e.2 else none)

theorem endsFrom_append (es fs : List (α × α)) (w : α) : endsFrom (es ++ fs) w = endsFrom es w ++ endsFrom fs w :=
  List.filterMap_append

theorem endsFrom_cons (e : α × α) (es : List (α × α)) (w : α) :
    endsFrom (e :: es) w = if e.1 = w then e.2 :: endsFrom es w else endsFrom es w := by
  by_cases h : e.1 = w <;> simp [endsFrom, h]

theorem endsFrom_filter (q : α × α → Bool) (w : α) : ∀ es : List (α × α),
    endsFrom (es.filter q) w = (endsFrom es w).filter (fun v => q (w, v))
  | [] => rfl
  | e :: es => by
    rw [endsFrom_cons, List.filter_cons]
    by_cases hw : e.1 = w
    · subst hw
      by_cases hq : q e = true <;> simp [hq, endsFrom_cons, endsFrom_filter q e.1 es]
    · by_cases hq : q e = true <;> simp [hq, hw, endsFrom_cons, endsFrom_filter q w es]

/-- A list with one more member, which is put last if it is new. -/
def appendNew (l : List α) (v : α) : List α := if v ∈ l then l else l ++ [v]

theorem edges_addEdge (g : Graph α) (u v : α) :
    (g.addEdge u v).edges = if (u, v) ∈ g.edges then g.edges else g.edges ++ [(u, v)] := by
  by_cases he : (u, v) ∈ g.edges <;> simp [addEdge, hasEdge, he]

theorem children_addEdge (g : Graph α) (u v w : α) :
    (g.addEdge u v).children w = if u = w then appendNew (g.children w) v else g.children w := by
  have hmem : v ∈ g.children u ↔ (u, v) ∈ g.edges := mem_children
  change endsFrom (g.addEdge u v).edges w = _
  rw [edges_addEdge]
  by_cases hw : u = w
  · subst hw
    rw [if_pos rfl, appendNew]
    simp only [hmem]
    split
    · rfl
    · rw [endsFrom_append, endsFrom_cons, if_pos rfl]
      rfl
  · rw [if_neg hw]
    split
    · rfl
    · rw [endsFrom_append, endsFrom_cons, if_neg hw]
      exact List.append_nil _

/-- **What a list of edges adds to the children of a node** are the ends of those of them that start there. -/
theorem children_addEdges (w : α) : ∀ (es : List (α × α)) (g : Graph α),
    (g.addEdges es).children w = (endsFrom es w).foldl appendNew (g.children w)
  | [], _ => rfl
  | e :: es, g => by
    have hone : g.addEdges (e :: es) = (g.addEdge e.1 e.2).addEdges es := rfl
    rw [hone, children_addEdges w es, children_addEdge, endsFrom_cons]
    by_cases hw : e.1 = w
    · rw [if_pos hw, if_pos hw, List.foldl_cons]
    · rw [if_neg hw, if_neg hw]

theorem children_removeEdge (g : Graph α) (u v w : α) :
    (g.removeEdge u v).children w = (g.children w).filter (fun x => decide ((w, x) ≠ (u, v))) :=
  endsFrom_filter _ w g.edges

theorem children_removeNode (g : Graph α) (n w : α) :
    (g.removeNode n).children w = (g.children w).filter (fun x => decide (w ≠ n) && decide (x ≠ n)) :=
  endsFrom_filter _ w g.edges

/-! ## Operations -/

theorem Matches.addNode (h : g.Matches k) (n : α) : (g.addNode n).Matches (k.addNode n) := by
  refine ⟨?_, fun w => ?_⟩
  · rw [nodes_addNode, nodes_addNode, h.nodes]
  · rw [Graph.children, Graph.children, edges_addNode, edges_addNode]
    exact h.children w

theorem Matches.addEdge (h : g.Matches k) (u v : α) : (g.addEdge u v).Matches (k.addEdge u v) := by
  refine ⟨?_, fun w => ?_⟩
  · rw [nodes_addEdge, nodes_addEdge]
    exact ((h.addNode u).addNode v).nodes
  · rw [children_addEdge, children_addEdge, h.children]

theorem Matches.removeEdge (h : g.Matches k) (u v : α) : (g.removeEdge u v).Matches (k.removeEdge u v) :=
  ⟨h.nodes, fun w => by rw [children_removeEdge, children_removeEdge, h.children]⟩

theorem Matches.removeEdges : ∀ (es : List (α × α)) {g k : Graph α}, g.Matches k →
    (g.removeEdges es).Matches (k.removeEdges es)
  | [], _, _, h => h
  | e :: es, _, _, h => Matches.removeEdges es (h.removeEdge e.1 e.2)

theorem Matches.removeNode (h : g.Matches k) (n : α) : (g.removeNode n).Matches (k.removeNode n) := by
  refine ⟨?_, fun w => by rw [children_removeNode, children_removeNode, h.children]⟩
  rw [Graph.removeNode, Graph.removeNode, h.nodes]

theorem Matches.edgesByNode_eq (h : g.Matches k) : g.edgesByNode = k.edgesByNode := by
  rw [edgesByNode, edgesByNode, h.nodes]
  simp only [h.children]

theorem Matches.clone_eq (h : g.Matches k) : g.clone = k.clone := by
  rw [clone, clone, h.nodes, h.edgesByNode_eq]

theorem Matches.induced_eq (h : g.Matches k) (keep : α → Bool) : g.induced keep = k.induced keep := by
  rw [induced, induced, h.nodes]
  simp only [h.children]

/-- A node is the start of one group at most, if no start is listed twice. -/
theorem flatMap_group {β : Type} {group : List β} : ∀ {l : List α}, l.Nodup →
    l.flatMap (fun w => if w = u then group else []) = if u ∈ l then group else []
  | [], _ => rfl
  | w :: l, hnd => by
    rw [List.nodup_cons] at hnd
    rw [List.flatMap_cons, flatMap_group hnd.2]
    by_cases hw : w = u
    · subst hw
      rw [if_pos rfl, if_neg hnd.1, if_pos List.mem_cons_self, List.append_nil]
    · simp [hw, Ne.symm hw]

theorem endsFrom_flatMap {β : Type} (l : List β) (f : β → List (α × α)) (w : α) :
    endsFrom (l.flatMap f) w = l.flatMap (fun b => endsFrom (f b) w) :=
  List.filterMap_flatMap

theorem endsFrom_map (u w : α) (l : List α) : endsFrom (l.map (fun v => (u, v))) w = if u = w then l else [] := by
  by_cases h : u = w <;> simp [endsFrom, List.filterMap_map, h]

/-- **What contraction adds to a parent does not depend on the other parents.** -/
theorem WellFormed.endsFrom_detours (hg : g.WellFormed) (n w : α) : endsFrom (g.detours n) w =
    if g.hasEdge w n ∧ w ≠ n then (g.children n).filter (fun c => decide (c ≠ n) && decide (c ≠ w)) else [] := by
  -- the group of `p` has ends only for `w = p`, so it may be written with `w` for `p`
  have hgroup : ∀ p, endsFrom (((g.children n).filter (fun c => decide (c ≠ n) && decide (c ≠ p))).map
      (fun c => (p, c))) w =
      if p = w then (g.children n).filter (fun c => decide (c ≠ n) && decide (c ≠ w)) else [] := by
    intro p
    rw [endsFrom_map]
    by_cases hp : p = w
    · rw [if_pos hp, if_pos hp, hp]
    · rw [if_neg hp, if_neg hp]
  rw [detours, endsFrom_flatMap, List.flatMap_congr fun p _ => hgroup p,
    flatMap_group ((hg.nodup_parents n).filter _)]
  refine if_congr ?_ rfl rfl
  rw [List.mem_filter, mem_parents, hasEdge_iff, decide_eq_true_iff]

theorem Matches.bypass (h : g.Matches k) (hg : g.WellFormed) (hk : k.WellFormed) (n : α) :
    (g.bypass n).Matches (k.bypass n) := by
  refine ⟨?_, fun w => ?_⟩
  · rw [hg.nodes_bypass, hk.nodes_bypass, h.nodes]
  · rw [Graph.bypass, Graph.bypass, children_removeNode, children_removeNode, children_addEdges, children_addEdges,
      hg.endsFrom_detours, hk.endsFrom_detours, h.hasEdge_eq, h.children, h.children]

theorem Matches.foldl_bypass : ∀ (ns : List α) {g k : Graph α}, g.Matches k → g.WellFormed → k.WellFormed →
    (ns.foldl Graph.bypass g).Matches (ns.foldl Graph.bypass k)
  | [], _, _, h, _, _ => h
  | n :: ns, _, _, h, hg, hk => Matches.foldl_bypass ns (h.bypass hg hk n) (hg.bypass n) (hk.bypass n)

theorem Matches.sweep_eq (h : g.Matches k) (seen queue : List α) : g.sweep seen queue = k.sweep seen queue := by
  fun_induction sweep g seen queue with
  | case1 => rw [sweep]
  | case2 seen n rest hn ih => rw [ih, sweep.eq_def k seen (n :: rest)]; simp only [hn, if_true]
  | case3 seen n rest hn ih => rw [ih, sweep.eq_def k seen (n :: rest)]; simp only [hn, if_false, h.children]

theorem Matches.descendants_eq (h : g.Matches k) (n : α) : g.descendants n = k.descendants n := by
  rw [descendants, descendants, h.children, h.sweep_eq]

theorem Matches.spareEdges_eq (h : g.Matches k) : g.spareEdges = k.spareEdges := by
  rw [spareEdges, spareEdges, h.nodes]
  simp only [shortcuts, h.children, h.descendants_eq]

/-- **Every operation makes matching graphs of matching graphs.** -/
theorem Matches.apply (h : g.Matches k) (hg : g.WellFormed) (hk : k.WellFormed) (o : Operation α) :
    (o.apply g).Matches (o.apply k) := by
  cases o with
  | addNode n => exact h.addNode n
  | addEdge u v => exact h.addEdge u v
  | removeEdge u v => exact h.removeEdge u v
  | removeNode n => exact h.removeNode n
  | clone =>
    rw [Operation.apply, Operation.apply, h.clone_eq]
    exact ⟨rfl, fun _ => rfl⟩
  | induced keep =>
    rw [Operation.apply, Operation.apply, h.induced_eq]
    exact ⟨rfl, fun _ => rfl⟩
  | contract drop =>
    rw [Operation.apply, Operation.apply, contract, contract, h.nodes]
    exact h.foldl_bypass _ hg hk
  | reduce =>
    rw [Operation.apply, Operation.apply, reduce, reduce, h.spareEdges_eq]
    exact h.removeEdges _

/-- **Matching graphs go on matching**, whatever is done to both. -/
theorem Matches.foldl_apply : ∀ (ops : List (Operation α)) {g k : Graph α}, g.Matches k → g.WellFormed → k.WellFormed →
    (ops.foldl Operation.apply g).Matches (ops.foldl Operation.apply k)
  | [], _, _, h, _, _ => h
  | o :: ops, _, _, h, hg, hk => Matches.foldl_apply ops (h.apply hg hk o) (hg.apply o) (hk.apply o)

/-! ## Answers -/

/-- What an operation tells: whether it finds what it adds missing or what it removes there, how many nodes or edges it
removes, or the nodes and edges of the graph that it makes. -/
inductive Report (α : Type) where
  | found (b : Bool)
  | removed (count : Nat)
  | made (nodes : List α) (edges : List (α × α))

/-- **What an operation tells when it is done to a graph.** -/
def Operation.report (g : Graph α) : Operation α → Report α
  | .addNode n => .found (!g.hasNode n)
  | .addEdge u v => .found (!g.hasEdge u v)
  | .removeEdge u v => .found (g.hasEdge u v)
  | .removeNode n => .found (g.hasNode n)
  | .clone => .made g.clone.nodes g.clone.edgesByNode
  | .induced keep => .made (g.induced keep).nodes (g.induced keep).edgesByNode
  | .contract drop => .removed (g.contract drop).1
  | .reduce => .removed g.reduce.1

/-- **Whatever is asked of two graphs has the same answer**, but for the order of parents. -/
structure SameAnswers (g k : Graph α) : Prop where
  report : ∀ o : Operation α, o.report g = o.report k
  nodes : g.nodes = k.nodes
  edges : g.edgesByNode = k.edgesByNode
  children : ∀ n, g.children n = k.children n
  parents : ∀ n, (g.parents n).Perm (k.parents n)
  outDegree : ∀ n, g.outDegree n = k.outDegree n
  inDegree : ∀ n, g.inDegree n = k.inDegree n
  sources : g.sources = k.sources
  sinks : g.sinks = k.sinks
  descendants : ∀ n, g.descendants n = k.descendants n
  reaches : ∀ a b, g.reaches a b = k.reaches a b
  hasCycle : g.hasCycle = k.hasCycle
  topologicalOrder? : g.topologicalOrder? = k.topologicalOrder?
  topologicalOrders : ∀ limit, g.topologicalOrders limit = k.topologicalOrders limit
  layers : g.layers = k.layers

theorem Matches.report_eq (h : g.Matches k) (o : Operation α) : o.report g = o.report k := by
  cases o with
  | addNode n => rw [Operation.report, Operation.report, h.hasNode_eq]
  | addEdge u v => rw [Operation.report, Operation.report, h.hasEdge_eq]
  | removeEdge u v => rw [Operation.report, Operation.report, h.hasEdge_eq]
  | removeNode n => rw [Operation.report, Operation.report, h.hasNode_eq]
  | clone => rw [Operation.report, Operation.report, h.clone_eq]
  | induced keep => rw [Operation.report, Operation.report, h.induced_eq]
  | contract drop => rw [Operation.report, Operation.report, contract, contract, h.nodes]
  | reduce => rw [Operation.report, Operation.report, reduce, reduce, h.spareEdges_eq]

theorem Matches.path_eq (h : g.Matches k) : g.Path = k.Path := by
  rw [Path, Path, h.edge_eq]

theorem Matches.reaches_eq (h : g.Matches k) (a b : α) : g.reaches a b = k.reaches a b := by
  rw [Bool.eq_iff_iff, reaches_iff, reaches_iff, h.path_eq]

theorem Matches.topological_iff (h : g.Matches k) {o : List α} : g.Topological o ↔ k.Topological o := by
  have hnodes := h.nodes
  have hedge := h.edge_eq
  refine ⟨fun ho => ⟨?_, ?_, ?_⟩, fun ho => ⟨?_, ?_, ?_⟩⟩
  · exact hnodes ▸ ho.perm
  · exact hedge ▸ ho.forward
  · exact hedge ▸ ho.loopless
  · exact hnodes ▸ ho.perm
  · exact hedge ▸ ho.forward
  · exact hedge ▸ ho.loopless

theorem Matches.workOff_eq (h : g.Matches k) (ahead : α → α → Bool) (w : Worklist α) :
    g.workOff ahead w = k.workOff ahead w := by
  fun_induction workOff g ahead w with
  | case1 missing => rw [workOff]
  | case2 missing n rest ih => rw [ih, workOff, h.children]

section

variable (h : g.Matches k) (hg : g.WellFormed) (hk : k.WellFormed)

include h hg hk

theorem Matches.parents_perm (n : α) : (g.parents n).Perm (k.parents n) := by
  refine (List.perm_ext_iff_of_nodup (hg.nodup_parents n) (hk.nodup_parents n)).2 fun u => ?_
  rw [mem_parents, mem_parents, h.edge_eq]

theorem Matches.sources_eq : g.sources = k.sources := by
  rw [sources, sources, h.nodes]
  exact List.filter_congr fun n _ => (h.parents_perm hg hk n).isEmpty_eq

theorem Matches.placing_eq (ahead : α → α → Bool) : g.placing ahead = k.placing ahead := by
  have hmissing : g.nodes.map (fun n => (n, g.inDegree n)) = k.nodes.map (fun n => (n, k.inDegree n)) := by
    rw [h.nodes]
    exact List.map_congr_left fun n _ => by rw [inDegree, inDegree, (h.parents_perm hg hk n).length_eq]
  rw [placing, placing, h.workOff_eq, worklist, worklist, hmissing, h.sources_eq hg hk]

theorem Matches.layers_eq : g.layers = k.layers := by
  have hpush : g.pushBelow = k.pushBelow := by
    funext layers n
    rw [pushBelow, pushBelow, h.children]
  rw [layers, layers, h.placing_eq hg hk, hpush, h.nodes]

theorem Matches.topologicalOrder?_eq : g.topologicalOrder? = k.topologicalOrder? := by
  have holder : g.older = k.older := by
    funext m n
    rw [older, older, h.nodes]
  rw [topologicalOrder?, topologicalOrder?, holder, h.placing_eq hg hk, h.nodes]

/-- The agendas may list what a node waits for in different orders, but there is one way only to list the topological
orders by age. -/
theorem Matches.completions_eq : g.agenda.completions = k.agenda.completions := by
  have hsorted := hg.sorted_completions
  have hsorted' := hk.sorted_completions
  rw [← h.nodes] at hsorted'
  have hnodup : ∀ {l : List (List α)},
      l.Pairwise (fun o o' => Agenda.positions g.nodes o < Agenda.positions g.nodes o') → l.Nodup := by
    intro l hl
    refine hl.imp ?_
    rintro o o' hlt rfl
    exact lt_irrefl _ hlt
  refine List.Perm.eq_of_pairwise (fun o o' _ _ hlt hlt' => absurd hlt' (List.lt_asymm hlt)) hsorted hsorted' ?_
  refine (List.perm_ext_iff_of_nodup (hnodup hsorted) (hnodup hsorted')).2 fun o => ?_
  rw [hg.mem_completions_agenda, hk.mem_completions_agenda, h.topological_iff]

/-- **Matches graphs cannot be told apart.** -/
theorem Matches.sameAnswers : g.SameAnswers k where
  report := h.report_eq
  nodes := h.nodes
  edges := h.edgesByNode_eq
  children := h.children
  parents := h.parents_perm hg hk
  outDegree n := by rw [outDegree, outDegree, h.children]
  inDegree n := (h.parents_perm hg hk n).length_eq
  sources := h.sources_eq hg hk
  sinks := by rw [sinks, sinks, h.nodes]; simp only [h.children]
  descendants := h.descendants_eq
  reaches := h.reaches_eq
  hasCycle := by
    rw [Bool.eq_iff_iff, ← not_iff_not, Bool.not_eq_true, Bool.not_eq_true, hg.hasCycle_eq_false_iff,
      hk.hasCycle_eq_false_iff, Acyclic, Acyclic, h.path_eq]
  topologicalOrder? := h.topologicalOrder?_eq hg hk
  topologicalOrders limit := by rw [topologicalOrders_eq, topologicalOrders_eq, h.completions_eq hg hk]
  layers := h.layers_eq hg hk

end

end Graph
end LoopNest
