import Mathlib.Data.List.Nodup
import LoopNest.Graph.Transform
/-!
# Proofs.Graph.WellFormed — what every operation on a graph keeps

A graph is well formed when no node and no edge is listed twice and both ends of every edge are nodes.  Each operation
is read off here as membership (`mem_nodes_addEdge`, `edge_addEdge`, …) and keeps well-formedness, so every graph that
a run of operations makes from the empty one is well formed (`Built.wellFormed`).
-/
namespace LoopNest
namespace Graph

variable {α : Type}

/-- **There is an edge from `u` to `v`.** -/
def Edge (g : Graph α) (u v : α) : Prop := (u, v) ∈ g.edges

/-- **No node and no edge is listed twice, and both ends of an edge are nodes.** -/
structure WellFormed (g : Graph α) : Prop where
  nodup_nodes : g.nodes.Nodup
  nodup_edges : g.edges.Nodup
  start_mem : ∀ {u v}, g.Edge u v → u ∈ g.nodes
  end_mem : ∀ {u v}, g.Edge u v → v ∈ g.nodes

theorem wellFormed_empty : (empty : Graph α).WellFormed where
  nodup_nodes := List.nodup_nil
  nodup_edges := List.nodup_nil
  start_mem h := by cases h
  end_mem h := by cases h

/-! ## Children and parents -/

variable [DecidableEq α]

theorem mem_children {g : Graph α} {u v : α} : v ∈ g.children u ↔ g.Edge u v := by
  unfold children Edge
  rw [List.mem_filterMap]
  constructor
  · rintro ⟨⟨a, b⟩, he, h⟩
    by_cases ha : a = u
    · subst ha; simp only [if_true, Option.some.injEq] at h; rw [← h]; exact he
    · simp [ha] at h
  · intro h
    exact ⟨(u, v), h, by simp⟩

theorem mem_parents {g : Graph α} {u v : α} : u ∈ g.parents v ↔ g.Edge u v := by
  unfold parents Edge
  rw [List.mem_filterMap]
  constructor
  · rintro ⟨⟨a, b⟩, he, h⟩
    by_cases hb : b = v
    · subst hb; simp only [if_true, Option.some.injEq] at h; rw [← h]; exact he
    · simp [hb] at h
  · intro h
    exact ⟨(u, v), h, by simp⟩

theorem hasNode_iff {g : Graph α} {n : α} : g.hasNode n = true ↔ n ∈ g.nodes := decide_eq_true_iff

theorem hasEdge_iff {g : Graph α} {u v : α} : g.hasEdge u v = true ↔ g.Edge u v := by
  unfold hasEdge Edge; exact decide_eq_true_iff

/-- A node has each child once. -/
theorem WellFormed.nodup_children {g : Graph α} (hg : g.WellFormed) (u : α) : (g.children u).Nodup := by
  unfold children
  refine hg.nodup_edges.filterMap ?_
  rintro ⟨a, b⟩ ⟨a', b'⟩ c h h'
  by_cases ha : a = u <;> by_cases ha' : a' = u <;> simp [ha, ha'] at h h'
  rw [ha, ha', h, h']

/-- A node has each parent once. -/
theorem WellFormed.nodup_parents {g : Graph α} (hg : g.WellFormed) (v : α) : (g.parents v).Nodup := by
  unfold parents
  refine hg.nodup_edges.filterMap ?_
  rintro ⟨a, b⟩ ⟨a', b'⟩ c h h'
  by_cases hb : b = v <;> by_cases hb' : b' = v <;> simp [hb, hb'] at h h'
  rw [hb, hb', h, h']

/-- What is no node has no children. -/
theorem WellFormed.children_eq_nil {g : Graph α} (hg : g.WellFormed) {n : α} (hn : n ∉ g.nodes) :
    g.children n = [] := by
  rw [List.eq_nil_iff_forall_not_mem]
  exact fun v hv => hn (hg.start_mem (mem_children.1 hv))

/-! ## Adding -/

theorem addNode_of_mem {g : Graph α} {n : α} (h : n ∈ g.nodes) : g.addNode n = g := by
  rw [addNode, if_pos (hasNode_iff.2 h)]

theorem nodes_addNode (g : Graph α) (m : α) :
    (g.addNode m).nodes = if m ∈ g.nodes then g.nodes else g.nodes ++ [m] := by
  unfold addNode hasNode
  by_cases hm : m ∈ g.nodes <;> simp [hm]

theorem mem_nodes_addNode {g : Graph α} {n x : α} : x ∈ (g.addNode n).nodes ↔ x ∈ g.nodes ∨ x = n := by
  unfold addNode hasNode
  split
  · rename_i h
    have hn : n ∈ g.nodes := by simpa using h
    exact ⟨Or.inl, fun h => h.elim id (fun hx => hx ▸ hn)⟩
  · simp

@[simp] theorem edges_addNode (g : Graph α) (n : α) : (g.addNode n).edges = g.edges := by
  unfold addNode; split <;> rfl

theorem WellFormed.addNode {g : Graph α} (hg : g.WellFormed) (n : α) : (g.addNode n).WellFormed where
  nodup_nodes := by
    unfold Graph.addNode hasNode
    split
    · exact hg.nodup_nodes
    · rename_i h
      have hn : n ∉ g.nodes := by simpa using h
      exact List.nodup_append.2 ⟨hg.nodup_nodes, List.nodup_singleton n, fun a ha b hb => by
        rintro rfl; rw [List.mem_singleton] at hb; exact hn (hb ▸ ha)⟩
  nodup_edges := by rw [edges_addNode]; exact hg.nodup_edges
  start_mem h := mem_nodes_addNode.2 (Or.inl (hg.start_mem (by rwa [Edge, edges_addNode] at h)))
  end_mem h := mem_nodes_addNode.2 (Or.inl (hg.end_mem (by rwa [Edge, edges_addNode] at h)))

theorem nodes_addEdge (g : Graph α) (u v : α) : (g.addEdge u v).nodes = ((g.addNode u).addNode v).nodes := by
  unfold addEdge
  dsimp only
  split <;> rfl

theorem mem_nodes_addEdge {g : Graph α} {u v x : α} : x ∈ (g.addEdge u v).nodes ↔ x ∈ g.nodes ∨ x = u ∨ x = v := by
  rw [nodes_addEdge, mem_nodes_addNode, mem_nodes_addNode, or_assoc]

theorem edge_addEdge {g : Graph α} {u v x y : α} : (g.addEdge u v).Edge x y ↔ g.Edge x y ∨ (x = u ∧ y = v) := by
  unfold addEdge Edge hasEdge
  dsimp only
  rw [edges_addNode, edges_addNode]
  split
  · rename_i h
    have huv : (u, v) ∈ g.edges := by simpa using h
    rw [edges_addNode, edges_addNode]
    exact ⟨Or.inl, fun h => h.elim id (fun hxy => by rw [hxy.1, hxy.2]; exact huv)⟩
  · simp [List.mem_append]

theorem WellFormed.addEdge {g : Graph α} (hg : g.WellFormed) (u v : α) : (g.addEdge u v).WellFormed := by
  have hh : ((g.addNode u).addNode v).WellFormed := (hg.addNode u).addNode v
  refine ⟨?_, ?_, fun {x y} h => ?_, fun {x y} h => ?_⟩
  · unfold Graph.addEdge
    dsimp only
    split <;> exact hh.nodup_nodes
  · unfold Graph.addEdge
    dsimp only
    split
    · exact hh.nodup_edges
    · rename_i h
      have huv : (u, v) ∉ ((g.addNode u).addNode v).edges := by simpa [hasEdge] using h
      exact List.nodup_append.2 ⟨hh.nodup_edges, List.nodup_singleton _, fun a ha b hb => by
        rintro rfl; rw [List.mem_singleton] at hb; exact huv (hb ▸ ha)⟩
  · rw [mem_nodes_addEdge]
    rcases edge_addEdge.1 h with h | ⟨rfl, rfl⟩
    · exact Or.inl (hg.start_mem h)
    · exact Or.inr (Or.inl rfl)
  · rw [mem_nodes_addEdge]
    rcases edge_addEdge.1 h with h | ⟨rfl, rfl⟩
    · exact Or.inl (hg.end_mem h)
    · exact Or.inr (Or.inr rfl)

theorem mem_nodes_addEdges {x : α} : ∀ (es : List (α × α)) (g : Graph α),
    x ∈ (g.addEdges es).nodes ↔ x ∈ g.nodes ∨ ∃ e ∈ es, x = e.1 ∨ x = e.2
  | [], g => by simp [addEdges]
  | e :: es, g => by
    rw [show g.addEdges (e :: es) = (g.addEdge e.1 e.2).addEdges es from rfl, mem_nodes_addEdges es, mem_nodes_addEdge]
    simp only [List.mem_cons, exists_eq_or_imp, or_assoc]

theorem edge_addEdges {x y : α} : ∀ (es : List (α × α)) (g : Graph α),
    (g.addEdges es).Edge x y ↔ g.Edge x y ∨ (x, y) ∈ es
  | [], g => by simp [addEdges]
  | e :: es, g => by
    rw [show g.addEdges (e :: es) = (g.addEdge e.1 e.2).addEdges es from rfl, edge_addEdges es, edge_addEdge,
      List.mem_cons, or_assoc, Prod.ext_iff]

theorem WellFormed.addEdges : ∀ (es : List (α × α)) {g : Graph α}, g.WellFormed → (g.addEdges es).WellFormed
  | [], _, hg => hg
  | e :: es, _, hg => WellFormed.addEdges es (hg.addEdge e.1 e.2)

/-- Edges between nodes that are there add no node. -/
theorem nodes_addEdges_of_mem : ∀ (es : List (α × α)) (g : Graph α), (∀ e ∈ es, e.1 ∈ g.nodes ∧ e.2 ∈ g.nodes) →
    (g.addEdges es).nodes = g.nodes
  | [], _, _ => rfl
  | e :: es, g, h => by
    have he := h e List.mem_cons_self
    have hone : (g.addEdge e.1 e.2).nodes = g.nodes := by
      rw [nodes_addEdge, addNode_of_mem he.1, addNode_of_mem he.2]
    rw [show g.addEdges (e :: es) = (g.addEdge e.1 e.2).addEdges es from rfl, nodes_addEdges_of_mem es _ (fun f hf => by
      rw [hone]; exact h f (List.mem_cons_of_mem _ hf)), hone]

/-! ## Removing -/

theorem edge_removeEdge {g : Graph α} {u v x y : α} : (g.removeEdge u v).Edge x y ↔ g.Edge x y ∧ (x, y) ≠ (u, v) := by
  unfold removeEdge Edge
  rw [List.mem_filter, decide_eq_true_iff]

theorem mem_nodes_removeNode {g : Graph α} {n x : α} : x ∈ (g.removeNode n).nodes ↔ x ∈ g.nodes ∧ x ≠ n := by
  simp [removeNode]

theorem edge_removeNode {g : Graph α} {n x y : α} : (g.removeNode n).Edge x y ↔ g.Edge x y ∧ x ≠ n ∧ y ≠ n := by
  simp [removeNode, Edge]

theorem WellFormed.removeEdge {g : Graph α} (hg : g.WellFormed) (u v : α) : (g.removeEdge u v).WellFormed where
  nodup_nodes := hg.nodup_nodes
  nodup_edges := hg.nodup_edges.filter _
  start_mem h := hg.start_mem (edge_removeEdge.1 h).1
  end_mem h := hg.end_mem (edge_removeEdge.1 h).1

theorem WellFormed.removeNode {g : Graph α} (hg : g.WellFormed) (n : α) : (g.removeNode n).WellFormed where
  nodup_nodes := hg.nodup_nodes.filter _
  nodup_edges := hg.nodup_edges.filter _
  start_mem h := by
    obtain ⟨he, hn, -⟩ := edge_removeNode.1 h
    exact mem_nodes_removeNode.2 ⟨hg.start_mem he, hn⟩
  end_mem h := by
    obtain ⟨he, -, hn⟩ := edge_removeNode.1 h
    exact mem_nodes_removeNode.2 ⟨hg.end_mem he, hn⟩

theorem nodes_removeEdges : ∀ (es : List (α × α)) (g : Graph α), (g.removeEdges es).nodes = g.nodes
  | [], _ => rfl
  | e :: es, g => nodes_removeEdges es (g.removeEdge e.1 e.2)

theorem edge_removeEdges {x y : α} : ∀ (es : List (α × α)) (g : Graph α),
    (g.removeEdges es).Edge x y ↔ g.Edge x y ∧ (x, y) ∉ es
  | [], g => by simp [removeEdges]
  | e :: es, g => by
    rw [show g.removeEdges (e :: es) = (g.removeEdge e.1 e.2).removeEdges es from rfl, edge_removeEdges es,
      edge_removeEdge, List.mem_cons, not_or, and_assoc]

theorem WellFormed.removeEdges : ∀ (es : List (α × α)) {g : Graph α}, g.WellFormed → (g.removeEdges es).WellFormed
  | [], _, hg => hg
  | e :: es, _, hg => WellFormed.removeEdges es (hg.removeEdge e.1 e.2)

/-! ## Copies and subgraphs -/

theorem WellFormed.foldl_addNode : ∀ (ns : List α) {g : Graph α}, g.WellFormed → (ns.foldl Graph.addNode g).WellFormed
  | [], _, hg => hg
  | n :: ns, _, hg => WellFormed.foldl_addNode ns (hg.addNode n)

theorem wellFormed_clone (g : Graph α) : g.clone.WellFormed :=
  WellFormed.addEdges _ (WellFormed.foldl_addNode _ wellFormed_empty)

theorem mem_nodes_induced {g : Graph α} {keep : α → Bool} {x : α} :
    x ∈ (g.induced keep).nodes ↔ x ∈ g.nodes ∧ keep x = true := List.mem_filter

theorem edge_induced {g : Graph α} {keep : α → Bool} {x y : α} :
    (g.induced keep).Edge x y ↔ g.Edge x y ∧ x ∈ (g.induced keep).nodes ∧ y ∈ (g.induced keep).nodes := by
  unfold induced Edge
  dsimp only
  simp only [List.mem_flatMap, List.mem_map, List.mem_filter, decide_eq_true_eq, Prod.mk.injEq]
  constructor
  · rintro ⟨u, hu, v, ⟨hv, hk⟩, rfl, rfl⟩
    exact ⟨mem_children.1 hv, hu, hk⟩
  · rintro ⟨he, hx, hy⟩
    exact ⟨x, hx, y, ⟨mem_children.2 he, hy⟩, rfl, rfl⟩

theorem WellFormed.induced {g : Graph α} (hg : g.WellFormed) (keep : α → Bool) : (g.induced keep).WellFormed where
  nodup_nodes := hg.nodup_nodes.filter _
  nodup_edges := by
    refine List.nodup_flatMap.2 ⟨fun u _ => ?_, ?_⟩
    · exact ((hg.nodup_children u).filter _).map (fun a b h => (Prod.mk.inj h).2)
    · refine (hg.nodup_nodes.filter keep).imp ?_
      intro u v huv e hu hv
      obtain ⟨a, -, rfl⟩ := List.mem_map.1 hu
      obtain ⟨b, -, hb⟩ := List.mem_map.1 hv
      exact huv (Prod.mk.inj hb).1.symm
  start_mem h := (edge_induced.1 h).2.1
  end_mem h := (edge_induced.1 h).2.2

/-! ## Contraction and reduction -/

theorem mem_detours {g : Graph α} {n p c : α} :
    (p, c) ∈ g.detours n ↔ g.Edge p n ∧ g.Edge n c ∧ p ≠ n ∧ c ≠ n ∧ c ≠ p := by
  unfold detours
  simp only [List.mem_flatMap, List.mem_map, List.mem_filter, Bool.and_eq_true, decide_eq_true_eq, Prod.mk.injEq,
    mem_parents, mem_children]
  constructor
  · rintro ⟨p', ⟨hp, hpn⟩, c', ⟨hc, hcn, hcp⟩, rfl, rfl⟩
    exact ⟨hp, hc, hpn, hcn, hcp⟩
  · rintro ⟨hp, hc, hpn, hcn, hcp⟩
    exact ⟨p, ⟨hp, hpn⟩, c, ⟨hc, hcn, hcp⟩, rfl, rfl⟩

/-- **One bypass, edge by edge**: the edges away from `n`, and one for each path of two edges through it whose ends
differ. -/
theorem edge_bypass {g : Graph α} {n u v : α} :
    (g.bypass n).Edge u v ↔ (u ≠ n ∧ v ≠ n) ∧ (g.Edge u v ∨ (u ≠ v ∧ g.Edge u n ∧ g.Edge n v)) := by
  unfold bypass
  rw [edge_removeNode, edge_addEdges, mem_detours]
  constructor
  · rintro ⟨h | ⟨h1, h2, -, -, hvu⟩, hu, hv⟩
    · exact ⟨⟨hu, hv⟩, Or.inl h⟩
    · exact ⟨⟨hu, hv⟩, Or.inr ⟨Ne.symm hvu, h1, h2⟩⟩
  · rintro ⟨⟨hu, hv⟩, h | ⟨huv, h1, h2⟩⟩
    · exact ⟨Or.inl h, hu, hv⟩
    · exact ⟨Or.inr ⟨h1, h2, hu, hv, Ne.symm huv⟩, hu, hv⟩

theorem WellFormed.nodes_bypass {g : Graph α} (hg : g.WellFormed) (n : α) :
    (g.bypass n).nodes = g.nodes.filter (fun m => decide (m ≠ n)) := by
  have h : (g.addEdges (g.detours n)).nodes = g.nodes := nodes_addEdges_of_mem _ g (fun e he => by
    obtain ⟨hp, hc, -⟩ := mem_detours.1 (show (e.1, e.2) ∈ g.detours n from he)
    exact ⟨hg.start_mem hp, hg.end_mem hc⟩)
  unfold bypass Graph.removeNode
  dsimp only
  rw [h]

theorem WellFormed.bypass {g : Graph α} (hg : g.WellFormed) (n : α) : (g.bypass n).WellFormed :=
  (WellFormed.addEdges _ hg).removeNode n

theorem WellFormed.foldl_bypass : ∀ (ns : List α) {g : Graph α}, g.WellFormed → (ns.foldl Graph.bypass g).WellFormed
  | [], _, hg => hg
  | n :: ns, _, hg => WellFormed.foldl_bypass ns (hg.bypass n)

theorem WellFormed.contract {g : Graph α} (hg : g.WellFormed) (drop : α → Bool) : (g.contract drop).2.WellFormed :=
  WellFormed.foldl_bypass _ hg

theorem WellFormed.reduce {g : Graph α} (hg : g.WellFormed) : g.reduce.2.WellFormed := WellFormed.removeEdges _ hg

/-! ## Runs of operations -/

/-- **An operation on a graph.** -/
inductive Operation (α : Type) where
  | addNode (n : α)
  | addEdge (u v : α)
  | removeEdge (u v : α)
  | removeNode (n : α)
  | clone
  | induced (keep : α → Bool)
  | contract (drop : α → Bool)
  | reduce

/-- What an operation makes of a graph. -/
def Operation.apply (g : Graph α) : Operation α → Graph α
  | .addNode n => g.addNode n
  | .addEdge u v => g.addEdge u v
  | .removeEdge u v => g.removeEdge u v
  | .removeNode n => g.removeNode n
  | .clone => g.clone
  | .induced keep => g.induced keep
  | .contract drop => (g.contract drop).2
  | .reduce => g.reduce.2

/-- The graph that operations make from the empty one, the first operation first. -/
def run (ops : List (Operation α)) : Graph α := ops.foldl Operation.apply empty

/-- **The graphs that there are**: those that some operations make from the empty one. -/
def Built (g : Graph α) : Prop := ∃ ops : List (Operation α), run ops = g

/-- **Every operation keeps a graph well formed.** -/
theorem WellFormed.apply {g : Graph α} (hg : g.WellFormed) (o : Operation α) : (o.apply g).WellFormed := by
  cases o with
  | addNode n => exact hg.addNode n
  | addEdge u v => exact hg.addEdge u v
  | removeEdge u v => exact hg.removeEdge u v
  | removeNode n => exact hg.removeNode n
  | clone => exact wellFormed_clone g
  | induced keep => exact hg.induced keep
  | contract drop => exact hg.contract drop
  | reduce => exact hg.reduce

theorem WellFormed.foldl_apply : ∀ (ops : List (Operation α)) {g : Graph α}, g.WellFormed →
    (ops.foldl Operation.apply g).WellFormed
  | [], _, hg => hg
  | o :: ops, _, hg => WellFormed.foldl_apply ops (hg.apply o)

/-- **Every graph that operations make is well formed.** -/
theorem Built.wellFormed {g : Graph α} (h : g.Built) : g.WellFormed := by
  obtain ⟨ops, rfl⟩ := h
  exact WellFormed.foldl_apply ops wellFormed_empty

end Graph
end LoopNest
