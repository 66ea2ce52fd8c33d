import Mathlib
import LoopNest.Proofs.Graph.Likeness
/-!
# Proofs.Graph.Cloning — a clone answers like its original

A clone is built afresh: first the nodes, then the edges group by group.  Nothing is listed twice, so nothing is dropped
on the way, and a clone is the graph with its edges grouped by their starts (`WellFormed.clone_eq`).  Grouping keeps the
children of every node in their order, so a clone matches its original (`WellFormed.matches_clone`), and no operation
tells the two apart (`clone_answers_alike`).
-/
namespace LoopNest
namespace Graph

variable {α : Type} [DecidableEq α] {g : Graph α} {u v : α}

theorem foldl_addNode_eq : ∀ {ns : List α} {g : Graph α}, (g.nodes ++ ns).Nodup →
    ns.foldl addNode g = ⟨g.nodes ++ ns, g.edges⟩
  | [], g, _ => by rw [List.foldl_nil, List.append_nil]
  | n :: ns, g, h => by
    have hn : n ∉ g.nodes := fun hmem => (List.nodup_append.1 h).2.2 n hmem n List.mem_cons_self rfl
    have hone : g.addNode n = ⟨g.nodes ++ [n], g.edges⟩ := by simp [addNode, hasNode, hn]
    rw [List.foldl_cons, hone, foldl_addNode_eq (by simpa using h), List.append_assoc, List.singleton_append]

/-- New edges between nodes that are there are listed after the old ones. -/
theorem addEdges_eq : ∀ {es : List (α × α)} {g : Graph α}, (g.edges ++ es).Nodup →
    (∀ e ∈ es, e.1 ∈ g.nodes ∧ e.2 ∈ g.nodes) → g.addEdges es = ⟨g.nodes, g.edges ++ es⟩
  | [], g, _, _ => by rw [List.append_nil]; rfl
  | e :: es, g, hnd, hmem => by
    have he : e ∉ g.edges := fun h => (List.nodup_append.1 hnd).2.2 e h e List.mem_cons_self rfl
    have hends := hmem e List.mem_cons_self
    have hone : g.addEdge e.1 e.2 = ⟨g.nodes, g.edges ++ [e]⟩ := by
      simp [addEdge, addNode, hasNode, hasEdge, hends.1, hends.2, he]
    have hrest := addEdges_eq (g := ⟨g.nodes, g.edges ++ [e]⟩) (by simpa using hnd) fun f hf =>
      hmem f (List.mem_cons_of_mem _ hf)
    change (g.addEdge e.1 e.2).addEdges es = _
    rw [hone, hrest]
    simp

theorem mem_edgesByNode : (u, v) ∈ g.edgesByNode ↔ u ∈ g.nodes ∧ g.Edge u v := by
  simp [edgesByNode, mem_children]

theorem WellFormed.nodup_edgesByNode (hg : g.WellFormed) : g.edgesByNode.Nodup := by
  refine List.nodup_flatMap.2 ⟨fun u _ => ?_, hg.nodup_nodes.imp ?_⟩
  · exact (hg.nodup_children u).map fun _ _ h => (Prod.mk.inj h).2
  · intro u u' hne e he he'
    obtain ⟨v, -, rfl⟩ := List.mem_map.1 he
    obtain ⟨v', -, heq⟩ := List.mem_map.1 he'
    exact hne (Prod.mk.inj heq).1.symm

/-- **A clone is the graph with its edges grouped by their starts.** -/
theorem WellFormed.clone_eq (hg : g.WellFormed) : g.clone = ⟨g.nodes, g.edgesByNode⟩ := by
  have hnodes : g.nodes.foldl Graph.addNode empty = ⟨g.nodes, []⟩ := foldl_addNode_eq (g := empty) hg.nodup_nodes
  rw [clone, hnodes]
  refine addEdges_eq (by simpa using hg.nodup_edgesByNode) fun e he => ?_
  obtain ⟨hu, hedge⟩ := mem_edgesByNode.1 he
  exact ⟨hu, hg.end_mem hedge⟩

/-- **A clone matches its original**: grouping leaves the children of a node in their order. -/
theorem WellFormed.matches_clone (hg : g.WellFormed) : g.clone.Matches g := by
  rw [hg.clone_eq]
  refine ⟨rfl, fun u => ?_⟩
  change endsFrom g.edgesByNode u = g.children u
  have hgroup : ∀ w, endsFrom ((g.children w).map fun v => (w, v)) u = if w = u then g.children u else [] := by
    intro w
    rw [endsFrom_map]
    by_cases hw : w = u
    · rw [if_pos hw, if_pos hw, hw]
    · rw [if_neg hw, if_neg hw]
  rw [edgesByNode, endsFrom_flatMap, List.flatMap_congr fun w _ => hgroup w, flatMap_group hg.nodup_nodes]
  by_cases hu : u ∈ g.nodes
  · rw [if_pos hu]
  · rw [if_neg hu, hg.children_eq_nil hu]

/-- **A clone lists the same edges**, node by node. -/
theorem WellFormed.edgesByNode_clone (hg : g.WellFormed) : g.clone.edgesByNode = g.edgesByNode :=
  hg.matches_clone.edgesByNode_eq

/-! ## A graph and its clone from then on -/

/-- One operation on one of two graphs. -/
def onEither (s : Graph α × Graph α) : Operation α ⊕ Operation α → Graph α × Graph α
  | .inl o => (o.apply s.1, s.2)
  | .inr o => (s.1, o.apply s.2)

/-- **Operations on one of two graphs leave the other as it is**, in whatever order they come. -/
theorem foldl_onEither : ∀ (steps : List (Operation α ⊕ Operation α)) (s : Graph α × Graph α),
    steps.foldl onEither s = ((steps.filterMap Sum.getLeft?).foldl Operation.apply s.1,
      (steps.filterMap Sum.getRight?).foldl Operation.apply s.2)
  | [], _ => rfl
  | .inl _ :: steps, _ => foldl_onEither steps _
  | .inr _ :: steps, _ => foldl_onEither steps _

/-- **A clone cannot be told from its original.**  It has the same nodes and edges, and every node has the same children
in the same order and the same parents in some order.  Whatever is done to both, they answer the same from then on.
What is done to one of them does not show in the other: however the operations on the two are mixed, the clone answers
as the original would if only the clone's own operations had been done to it. -/
theorem clone_answers_alike (hg : g.Built) :
    g.clone.nodes = g.nodes ∧ g.clone.edgesByNode = g.edgesByNode ∧ (∀ n, g.clone.children n = g.children n) ∧
    (∀ n, (g.clone.parents n).Perm (g.parents n)) ∧
    (∀ ops : List (Operation α), (ops.foldl Operation.apply g.clone).SameAnswers (ops.foldl Operation.apply g)) ∧
    ∀ steps : List (Operation α ⊕ Operation α), steps.foldl onEither (g, g.clone) =
      ((steps.filterMap Sum.getLeft?).foldl Operation.apply g,
        (steps.filterMap Sum.getRight?).foldl Operation.apply g.clone) ∧
      (steps.foldl onEither (g, g.clone)).2.SameAnswers ((steps.filterMap Sum.getRight?).foldl Operation.apply g) := by
  have hw := hg.wellFormed
  have hclone := wellFormed_clone g
  have hmatch := hw.matches_clone
  have hsame : ∀ ops : List (Operation α),
      (ops.foldl Operation.apply g.clone).SameAnswers (ops.foldl Operation.apply g) := fun ops =>
    (hmatch.foldl_apply ops hclone hw).sameAnswers (hclone.foldl_apply ops) (hw.foldl_apply ops)
  refine ⟨hmatch.nodes, hmatch.edgesByNode_eq, hmatch.children, hmatch.parents_perm hclone hw, hsame,
    fun steps => ⟨foldl_onEither steps _, ?_⟩⟩
  rw [foldl_onEither]
  exact hsame (steps.filterMap Sum.getRight?)

/-- A node whose younger parent came first. -/
def crossed : Graph Nat := run [.addNode 1, .addEdge 2 3, .addEdge 1 3, .addEdge 3 4, .addEdge 3 5]

/-- Its clone has the parents in the other order, and so have the children of the node when it is contracted, but the
edges are listed in the same order. -/
theorem clone_answers_alike_crossed : crossed.Built ∧ crossed.parents 3 = [2, 1] ∧ crossed.clone.parents 3 = [1, 2] ∧
    (crossed.contract (· == 3)).2.parents 4 = [2, 1] ∧ (crossed.clone.contract (· == 3)).2.parents 4 = [1, 2] ∧
    (crossed.clone.contract (· == 3)).2.edgesByNode = (crossed.contract (· == 3)).2.edgesByNode := by
  have hb : crossed.Built := ⟨_, rfl⟩
  obtain ⟨-, -, -, -, hsame, -⟩ := clone_answers_alike hb
  exact ⟨hb, by decide +kernel, by decide +kernel, by decide +kernel, by decide +kernel,
    (hsame [.contract (· == 3)]).edges⟩

end Graph
end LoopNest
