import Mathlib
import LoopNest.Graph.Store
/-!
# Proofs.Graph.Storing — the five parts of a store stay in step

A store is in step when its order and its set hold the same nodes, and its set of edges, its children and its parents
tell the same edges (`InStep`).  Four operations change the records, and each keeps them in step by itself: adding a
node, putting an edge on record, taking it off, and removing a node, where a loop is on record with the node on both
sides.  All others are made of these.
-/
namespace LoopNest

/-! ## Tables -/

namespace Adjacency

variable {α : Type} [DecidableEq α] {t : Adjacency α} {n m : α}

theorem get_cons (x : α) (l : List α) (t : Adjacency α) (m : α) :
    get ((x, l) :: t) m = if m = x then l else t.get m := by
  by_cases h : m = x
  · subst h
    rw [if_pos rfl, get, List.lookup_cons_self]
    rfl
  · rw [if_neg h, get, List.lookup_cons, beq_eq_false_iff_ne.2 h]
    rfl

theorem get_erase (n m : α) : ∀ t : Adjacency α, (t.erase n).get m = if m = n then [] else t.get m
  | [] => by simp [erase, get]
  | (x, l) :: t => by
    have ih := get_erase n m t
    unfold erase at ih ⊢
    rw [List.filter_cons, get_cons]
    by_cases hx : x = n
    · subst hx
      rw [if_neg (by simp), ih]
      split <;> rfl
    · rw [if_pos (by simpa using hx), get_cons, ih]
      by_cases hm : m = x
      · rw [if_pos hm, if_neg (hm ▸ hx), if_pos hm]
      · rw [if_neg hm, if_neg hm]

theorem get_set (t : Adjacency α) (n : α) (l : List α) (m : α) :
    (t.set n l).get m = if m = n then l else t.get m := by
  rw [set, get_cons, get_erase]
  split <;> rfl

/-- **Whoever is told forgets `n`**, except `n` itself. -/
theorem get_forget (n m : α) : ∀ (ms : List α) (t : Adjacency α), (t.forget n ms).get m =
    if m ∈ ms ∧ m ≠ n then (t.get m).filter (fun x => decide (x ≠ n)) else t.get m
  | [], t => by simp [forget]
  | c :: ms, t => by
    change (forget (if c = n then t else t.set c ((t.get c).filter (fun x => decide (x ≠ n)))) n ms).get m = _
    rw [get_forget n m ms]
    by_cases hc : c = n
    · subst hc
      by_cases hm : m = c <;> simp [hm]
    · rw [if_neg hc, get_set]
      by_cases hm : m = c
      · subst hm
        simp [hc]
      · simp [hm]

/-- **Nobody has `n` on record any more**, once all who had it were told and its own entry is gone. -/
theorem get_erase_forget {told : List α} (h : ∀ w, n ∈ t.get w → w ∈ told) (w : α) :
    ((t.forget n told).erase n).get w = (t.get w).filter (fun x => decide (x ≠ n) && decide (w ≠ n)) := by
  rw [get_erase, get_forget]
  by_cases hw : w = n
  · simp [hw]
  · rw [if_neg hw]
    by_cases htold : w ∈ told
    · rw [if_pos ⟨htold, hw⟩]
      simp [hw]
    · rw [if_neg fun hboth => htold hboth.1, eq_comm, List.filter_eq_self]
      intro x hx
      have hxn : x ≠ n := fun hxn => htold (h w (hxn ▸ hx))
      simp [hw, hxn]

end Adjacency

namespace Store

variable {α : Type} [DecidableEq α] {s t : Store α} {g : Graph α} {n m u v w : α}

/-- **The parts of a store are in step.**  The order and the set hold the same nodes, the set of edges and both tables
the same edges, nothing is on record twice, and both ends of an edge are nodes. -/
structure InStep (s : Store α) : Prop where
  nodup_order : s.order.Nodup
  nodup_nodes : s.nodes.Nodup
  nodup_edges : s.edges.Nodup
  nodup_children : ∀ n, (s.children n).Nodup
  nodup_parents : ∀ n, (s.parents n).Nodup
  mem_nodes : ∀ {n}, n ∈ s.nodes ↔ n ∈ s.order
  mem_children : ∀ {u v}, v ∈ s.children u ↔ (u, v) ∈ s.edges
  mem_parents : ∀ {u v}, u ∈ s.parents v ↔ (u, v) ∈ s.edges
  start_mem : ∀ {u v}, (u, v) ∈ s.edges → u ∈ s.nodes
  end_mem : ∀ {u v}, (u, v) ∈ s.edges → v ∈ s.nodes

theorem inStep_new : (new : Store α).InStep where
  nodup_order := List.nodup_nil
  nodup_nodes := List.nodup_nil
  nodup_edges := List.nodup_nil
  nodup_children _ := List.nodup_nil
  nodup_parents _ := List.nodup_nil
  mem_nodes := Iff.rfl
  mem_children {u v} := by simp [new, children, Adjacency.get]
  mem_parents {u v} := by simp [new, parents, Adjacency.get]
  start_mem h := by cases h
  end_mem h := by cases h

/-! ## Adding -/

theorem hasNode_iff : s.hasNode n = true ↔ n ∈ s.nodes := decide_eq_true_iff

theorem hasEdge_iff : s.hasEdge u v = true ↔ (u, v) ∈ s.edges := List.contains_iff_mem

theorem addNode_of_mem (h : n ∈ s.nodes) : s.addNode n = (false, s) := by
  rw [addNode, if_pos (hasNode_iff.2 h)]

theorem addNode_of_not_mem (h : n ∉ s.nodes) :
    s.addNode n = (true, { s with order := s.order ++ [n], nodes := s.nodes.insert n }) := by
  rw [addNode, if_neg (mt hasNode_iff.1 h)]

theorem mem_nodes_addNode : m ∈ (s.addNode n).2.nodes ↔ m ∈ s.nodes ∨ m = n := by
  by_cases hn : n ∈ s.nodes
  · rw [addNode_of_mem hn]
    exact ⟨.inl, fun h => h.elim id fun hm => hm ▸ hn⟩
  · rw [addNode_of_not_mem hn]
    simp [or_comm]

/-- **Adding a node** touches the order and the set of nodes. -/
theorem InStep.addNode (h : s.InStep) (n : α) : (s.addNode n).2.InStep := by
  by_cases hn : n ∈ s.nodes
  · rw [addNode_of_mem hn]
    exact h
  · rw [addNode_of_not_mem hn]
    have hord : n ∉ s.order := fun hmem => hn (h.mem_nodes.2 hmem)
    refine ⟨?_, h.nodup_nodes.insert, h.nodup_edges, h.nodup_children, h.nodup_parents, ?_, h.mem_children,
      h.mem_parents, fun he => List.mem_insert_of_mem (h.start_mem he), fun he => List.mem_insert_of_mem (h.end_mem he)⟩
    · exact List.nodup_append.2 ⟨h.nodup_order, List.nodup_singleton n, fun a ha b hb => by
        rintro rfl; rw [List.mem_singleton] at hb; exact hord (hb ▸ ha)⟩
    · intro m
      simp only [List.mem_insert_iff, List.mem_append, List.mem_singleton, h.mem_nodes]
      exact or_comm

theorem children_link (s : Store α) (u v w : α) :
    (s.link u v).children w = if w = u then s.children u ++ [v] else s.children w :=
  Adjacency.get_set _ _ _ _

theorem parents_link (s : Store α) (u v w : α) :
    (s.link u v).parents w = if w = v then s.parents v ++ [u] else s.parents w :=
  Adjacency.get_set _ _ _ _

/-- **Putting a new edge on record** writes it down three times. -/
theorem InStep.link (h : s.InStep) (hu : u ∈ s.nodes) (hv : v ∈ s.nodes) (hnew : (u, v) ∉ s.edges) :
    (s.link u v).InStep := by
  have hedges : ∀ {e : α × α}, e ∈ (s.link u v).edges ↔ e ∈ s.edges ∨ e = (u, v) := by
    intro e
    simp [Store.link, or_comm]
  refine ⟨h.nodup_order, h.nodup_nodes, h.nodup_edges.insert, fun w => ?_, fun w => ?_, h.mem_nodes, ?_, ?_, ?_, ?_⟩
  · rw [children_link]
    split
    · have hv' : v ∉ s.children u := fun hmem => hnew (h.mem_children.1 hmem)
      simpa [List.nodup_append] using ⟨h.nodup_children u, fun a ha hav => hv' (hav ▸ ha)⟩
    · exact h.nodup_children w
  · rw [parents_link]
    split
    · have hu' : u ∉ s.parents v := fun hmem => hnew (h.mem_parents.1 hmem)
      simpa [List.nodup_append] using ⟨h.nodup_parents v, fun a ha hau => hu' (hau ▸ ha)⟩
    · exact h.nodup_parents w
  · intro x y
    rw [children_link, hedges]
    by_cases hx : x = u
    · subst hx
      simp [h.mem_children]
    · simp [hx, h.mem_children]
  · intro x y
    rw [parents_link, hedges]
    by_cases hy : y = v
    · subst hy
      simp [h.mem_parents]
    · simp [hy, h.mem_parents]
  · intro x y he
    rcases hedges.1 he with he | he
    · exact h.start_mem he
    · cases he; exact hu
  · intro x y he
    rcases hedges.1 he with he | he
    · exact h.end_mem he
    · cases he; exact hv

/-- **Adding an edge** adds its ends, and puts it on record if it is new. -/
theorem InStep.addEdge (h : s.InStep) (u v : α) : (s.addEdge u v).2.InStep := by
  have ht : ((s.addNode u).2.addNode v).2.InStep := (h.addNode u).addNode v
  unfold Store.addEdge
  dsimp only
  split
  · exact ht
  · rename_i hnew
    refine ht.link ?_ ?_ (mt hasEdge_iff.2 hnew)
    · exact mem_nodes_addNode.2 (.inl (mem_nodes_addNode.2 (.inr rfl)))
    · exact mem_nodes_addNode.2 (.inr rfl)

theorem InStep.addEdge_of_mem (h : s.InStep) (he : (u, v) ∈ s.edges) : s.addEdge u v = (false, s) := by
  unfold Store.addEdge
  rw [addNode_of_mem (h.start_mem he), addNode_of_mem (h.end_mem he)]
  exact if_pos (hasEdge_iff.2 he)

/-! ## Removing -/

theorem children_unlink (s : Store α) (u v w : α) :
    (s.unlink u v).children w = if w = u then (s.children u).filter (fun c => decide (c ≠ v)) else s.children w :=
  Adjacency.get_set _ _ _ _

theorem parents_unlink (s : Store α) (u v w : α) :
    (s.unlink u v).parents w = if w = v then (s.parents v).filter (fun p => decide (p ≠ u)) else s.parents w :=
  Adjacency.get_set _ _ _ _

/-- **Taking an edge off the records** erases it three times. -/
theorem InStep.unlink (h : s.InStep) (u v : α) : (s.unlink u v).InStep := by
  have hedges : ∀ {e : α × α}, e ∈ (s.unlink u v).edges ↔ e ∈ s.edges ∧ e ≠ (u, v) := by
    intro e
    simp [Store.unlink]
  refine ⟨h.nodup_order, h.nodup_nodes, h.nodup_edges.filter _, fun w => ?_, fun w => ?_, h.mem_nodes, ?_, ?_,
    fun he => h.start_mem (hedges.1 he).1, fun he => h.end_mem (hedges.1 he).1⟩
  · rw [children_unlink]
    split
    · exact (h.nodup_children u).filter _
    · exact h.nodup_children w
  · rw [parents_unlink]
    split
    · exact (h.nodup_parents v).filter _
    · exact h.nodup_parents w
  · intro x y
    rw [children_unlink, hedges]
    by_cases hx : x = u
    · subst hx
      simp [h.mem_children]
    · simp [hx, h.mem_children]
  · intro x y
    rw [parents_unlink, hedges]
    by_cases hy : y = v
    · subst hy
      simp [h.mem_parents]
    · simp [hy, h.mem_parents]

theorem removeEdge_of_mem (h : (u, v) ∈ s.edges) : s.removeEdge u v = (true, s.unlink u v) := by
  rw [removeEdge, if_pos (hasEdge_iff.2 h)]

theorem removeEdge_of_not_mem (h : (u, v) ∉ s.edges) : s.removeEdge u v = (false, s) := by
  rw [removeEdge, if_neg (mt hasEdge_iff.1 h)]

/-- **Removing an edge** takes it off the records if it is there. -/
theorem InStep.removeEdge (h : s.InStep) (u v : α) : (s.removeEdge u v).2.InStep := by
  by_cases he : (u, v) ∈ s.edges
  · rw [removeEdge_of_mem he]
    exact h.unlink u v
  · rw [removeEdge_of_not_mem he]
    exact h

theorem order_removeEdge (s : Store α) (u v : α) : (s.removeEdge u v).2.order = s.order := by
  unfold Store.removeEdge
  split <;> rfl

theorem InStep.children_removeEdge (h : s.InStep) (u v w : α) : (s.removeEdge u v).2.children w =
    (s.children w).filter (fun x => decide ((w, x) ≠ (u, v))) := by
  by_cases he : (u, v) ∈ s.edges
  · rw [removeEdge_of_mem he, children_unlink]
    by_cases hw : w = u
    · subst hw
      simp
    · simp [hw]
  · rw [removeEdge_of_not_mem he, eq_comm, List.filter_eq_self]
    exact fun x hx => decide_eq_true fun heq => he (heq ▸ h.mem_children.1 hx)

theorem InStep.parents_removeEdge (h : s.InStep) (u v w : α) : (s.removeEdge u v).2.parents w =
    (s.parents w).filter (fun x => decide ((x, w) ≠ (u, v))) := by
  by_cases he : (u, v) ∈ s.edges
  · rw [removeEdge_of_mem he, parents_unlink]
    by_cases hw : w = v
    · subst hw
      simp
    · simp [hw]
  · rw [removeEdge_of_not_mem he, eq_comm, List.filter_eq_self]
    exact fun x hx => decide_eq_true fun heq => he (heq ▸ h.mem_parents.1 hx)

/-- The parents that are told are those from before the children forgot `n`, even where `n` is its own child. -/
theorem get_forget_self (s : Store α) (n : α) : (s.incoming.forget n (s.outgoing.get n)).get n = s.parents n := by
  rw [Adjacency.get_forget, if_neg fun hself => hself.2 rfl]
  rfl

/-- What is left of a store when the node `n` is removed, with the parents as they were before. -/
theorem removeNode_of_mem (h : n ∈ s.nodes) : s.removeNode n = (true, {
    order := s.order.filter (fun m => decide (m ≠ n))
    nodes := s.nodes.filter (fun m => decide (m ≠ n))
    edges := s.edges.filter (fun e =>
      !((s.children n).map (fun c => (n, c))).contains e && !((s.parents n).map (fun p => (p, n))).contains e)
    outgoing := (s.outgoing.forget n (s.parents n)).erase n
    incoming := (s.incoming.forget n (s.children n)).erase n }) := by
  rw [removeNode, if_pos (hasNode_iff.2 h)]
  dsimp only
  rw [get_forget_self]
  rfl

theorem removeNode_of_not_mem (h : n ∉ s.nodes) : s.removeNode n = (false, s) := by
  rw [removeNode, if_neg (mt hasNode_iff.1 h)]

/-- What is no node is on no edge. -/
theorem InStep.ne_of_mem_edges (h : s.InStep) (hn : n ∉ s.nodes) (he : (u, v) ∈ s.edges) : u ≠ n ∧ v ≠ n :=
  ⟨fun hu => hn (hu ▸ h.start_mem he), fun hv => hn (hv ▸ h.end_mem he)⟩

theorem InStep.mem_edges_removeNode (h : s.InStep) :
    (u, v) ∈ (s.removeNode n).2.edges ↔ (u, v) ∈ s.edges ∧ u ≠ n ∧ v ≠ n := by
  by_cases hn : n ∈ s.nodes
  · rw [removeNode_of_mem hn]
    simp only [List.mem_filter, Bool.and_eq_true, List.contains_eq_mem, Bool.not_eq_true', decide_eq_false_iff_not,
      List.mem_map, Prod.mk.injEq, not_exists, not_and, h.mem_children, h.mem_parents]
    constructor
    · rintro ⟨he, hout, hin⟩
      exact ⟨he, fun hu => hout v (hu ▸ he) hu.symm rfl, fun hv => hin u (hv ▸ he) rfl hv.symm⟩
    · rintro ⟨he, hu, hv⟩
      exact ⟨he, fun c _ hc _ => hu hc.symm, fun p _ _ hp => hv hp.symm⟩
  · rw [removeNode_of_not_mem hn]
    exact ⟨fun he => ⟨he, h.ne_of_mem_edges hn he⟩, And.left⟩

/-- **The children that a node has left**: none if it is removed itself, and otherwise those that are not. -/
theorem InStep.children_removeNode (h : s.InStep) (n w : α) : (s.removeNode n).2.children w =
    (s.children w).filter (fun x => decide (x ≠ n) && decide (w ≠ n)) := by
  by_cases hn : n ∈ s.nodes
  · rw [removeNode_of_mem hn]
    exact Adjacency.get_erase_forget (fun w hw => h.mem_parents.2 (h.mem_children.1 hw)) w
  · rw [removeNode_of_not_mem hn, eq_comm, List.filter_eq_self]
    intro x hx
    simpa using (h.ne_of_mem_edges hn (h.mem_children.1 hx)).symm

/-- **The parents that a node has left**: none if it is removed itself, and otherwise those that are not. -/
theorem InStep.parents_removeNode (h : s.InStep) (n w : α) : (s.removeNode n).2.parents w =
    (s.parents w).filter (fun x => decide (x ≠ n) && decide (w ≠ n)) := by
  by_cases hn : n ∈ s.nodes
  · rw [removeNode_of_mem hn]
    exact Adjacency.get_erase_forget (fun w hw => h.mem_children.2 (h.mem_parents.1 hw)) w
  · rw [removeNode_of_not_mem hn, eq_comm, List.filter_eq_self]
    intro x hx
    simpa using h.ne_of_mem_edges hn (h.mem_parents.1 hx)

theorem InStep.order_removeNode (h : s.InStep) (n : α) :
    (s.removeNode n).2.order = s.order.filter (fun m => decide (m ≠ n)) := by
  by_cases hn : n ∈ s.nodes
  · rw [removeNode_of_mem hn]
  · rw [removeNode_of_not_mem hn, eq_comm, List.filter_eq_self]
    intro m hm
    have hmn : m ≠ n := fun hmn => hn (h.mem_nodes.2 (hmn ▸ hm))
    simpa using hmn

theorem mem_nodes_removeNode : m ∈ (s.removeNode n).2.nodes ↔ m ∈ s.nodes ∧ m ≠ n := by
  by_cases hn : n ∈ s.nodes
  · rw [removeNode_of_mem hn]
    simp
  · rw [removeNode_of_not_mem hn]
    exact ⟨fun hm => ⟨hm, fun hmn => hn (hmn ▸ hm)⟩, And.left⟩

/-- **Removing a node** leaves no record of it. -/
theorem InStep.removeNode (h : s.InStep) (n : α) : (s.removeNode n).2.InStep where
  nodup_order := by
    rw [h.order_removeNode]
    exact h.nodup_order.filter _
  nodup_nodes := by
    by_cases hn : n ∈ s.nodes
    · rw [removeNode_of_mem hn]
      exact h.nodup_nodes.filter _
    · rw [removeNode_of_not_mem hn]
      exact h.nodup_nodes
  nodup_edges := by
    by_cases hn : n ∈ s.nodes
    · rw [removeNode_of_mem hn]
      exact h.nodup_edges.filter _
    · rw [removeNode_of_not_mem hn]
      exact h.nodup_edges
  nodup_children w := by
    rw [h.children_removeNode]
    exact (h.nodup_children w).filter _
  nodup_parents w := by
    rw [h.parents_removeNode]
    exact (h.nodup_parents w).filter _
  mem_nodes {m} := by
    rw [mem_nodes_removeNode, h.order_removeNode, h.mem_nodes, List.mem_filter, decide_eq_true_iff]
  mem_children {u v} := by
    rw [h.children_removeNode, h.mem_edges_removeNode, List.mem_filter, h.mem_children, Bool.and_eq_true,
      decide_eq_true_iff, decide_eq_true_iff, and_comm (a := v ≠ n)]
  mem_parents {u v} := by
    rw [h.parents_removeNode, h.mem_edges_removeNode, List.mem_filter, h.mem_parents, Bool.and_eq_true,
      decide_eq_true_iff, decide_eq_true_iff]
  start_mem he := by
    obtain ⟨he, hu, -⟩ := h.mem_edges_removeNode.1 he
    exact mem_nodes_removeNode.2 ⟨h.start_mem he, hu⟩
  end_mem he := by
    obtain ⟨he, -, hv⟩ := h.mem_edges_removeNode.1 he
    exact mem_nodes_removeNode.2 ⟨h.end_mem he, hv⟩

/-! ## Counting the edges -/

theorem InStep.no_neighbours (h : s.InStep) (hn : n ∉ s.nodes) : s.children n = [] ∧ s.parents n = [] := by
  constructor <;> rw [List.eq_nil_iff_forall_not_mem]
  · exact fun v hv => hn (h.start_mem (h.mem_children.1 hv))
  · exact fun u hu => hn (h.end_mem (h.mem_parents.1 hu))

/-- **A listing of the edges has each once**, if it goes through the nodes and tells for each the edges on one side. -/
theorem InStep.perm_edges (h : s.InStep) (side : α → List α) (edge : α → α → α × α)
    (hnd : ∀ n, (side n).Nodup) (hinj : ∀ {n m x y}, edge n x = edge m y → n = m ∧ x = y)
    (hmem : ∀ {e}, e ∈ s.edges ↔ ∃ n ∈ s.order, ∃ x ∈ side n, edge n x = e) :
    s.edges.Perm (s.order.flatMap (fun n => (side n).map (edge n))) := by
  refine (List.perm_ext_iff_of_nodup h.nodup_edges ?_).2 fun e => ?_
  · refine List.nodup_flatMap.2 ⟨fun n _ => (hnd n).map fun _ _ heq => (hinj heq).2, h.nodup_order.imp ?_⟩
    intro n m hne e he he'
    obtain ⟨x, -, rfl⟩ := List.mem_map.1 he
    obtain ⟨y, -, heq⟩ := List.mem_map.1 he'
    exact hne (hinj heq).1.symm
  · simp only [hmem, List.mem_flatMap, List.mem_map]

theorem InStep.perm_edgesByNode (h : s.InStep) : s.edges.Perm s.edgesByNode := by
  refine h.perm_edges s.children (fun u v => (u, v)) h.nodup_children Prod.mk.inj fun {e} => ?_
  constructor
  · intro he
    exact ⟨e.1, h.mem_nodes.1 (h.start_mem he), e.2, h.mem_children.2 he, rfl⟩
  · rintro ⟨u, -, v, hv, rfl⟩
    exact h.mem_children.1 hv

theorem InStep.edgeCount_eq_outDegrees (h : s.InStep) : s.edgeCount = (s.order.map s.outDegree).sum := by
  rw [edgeCount, h.perm_edgesByNode.length_eq, edgesByNode, List.length_flatMap]
  simp only [List.length_map]
  rfl

theorem InStep.edgeCount_eq_inDegrees (h : s.InStep) : s.edgeCount = (s.order.map s.inDegree).sum := by
  have hperm : s.edges.Perm (s.order.flatMap (fun v => (s.parents v).map (fun u => (u, v)))) := by
    refine h.perm_edges s.parents (fun v u => (u, v)) h.nodup_parents (fun heq => (Prod.mk.inj heq).symm) fun {e} => ?_
    constructor
    · intro he
      exact ⟨e.2, h.mem_nodes.1 (h.end_mem he), e.1, h.mem_parents.2 he, rfl⟩
    · rintro ⟨v, -, u, hu, rfl⟩
      exact h.mem_parents.1 hu
  rw [edgeCount, hperm.length_eq, List.length_flatMap]
  simp only [List.length_map]
  rfl

end Store
end LoopNest
