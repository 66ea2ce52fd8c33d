import LoopNest.Proofs.Graph.Backtracking
/-!
# Proofs.Graph.Orders — the enumeration of topological orders is exact

The search lists the completions of the agenda of a graph, cut off where it is stopped (`topologicalOrders_eq`).  They
are its topological orders, which are read here as lists of its nodes with every edge pointing forward
(`topological_iff`), they come in strictly increasing order by the age of their nodes, and the search that takes back
what it tried hands them on in that order.
-/
namespace LoopNest
namespace Graph

variable {α : Type}

theorem placedFrom_of_always : ∀ (i : Nat) (o : List α), Agenda.placedFrom (fun _ _ => true) i o = true
  | _, [] => rfl
  | i, _ :: o => by rw [Agenda.placedFrom, Bool.true_and]; exact placedFrom_of_always (i + 1) o

variable [DecidableEq α]

/-- **A search that stops after `limit` orders has found the first completions.** -/
theorem topologicalOrders_eq (g : Graph α) (limit : Nat) :
    g.topologicalOrders limit = g.agenda.completions.take limit := by
  have hall : g.agenda.completions.filter (Agenda.placedFrom (fun _ _ => true) 0) = g.agenda.completions :=
    List.filter_eq_self.2 (fun o _ => placedFrom_of_always 0 o)
  rw [topologicalOrders, Agenda.ordersWhere_eq, hall]

theorem WellFormed.sorted_completions {g : Graph α} (hg : g.WellFormed) : g.agenda.completions.Pairwise
    (fun o o' => Agenda.positions g.nodes o < Agenda.positions g.nodes o') := by
  apply Agenda.completions_sorted
  rw [keys_agenda]
  exact Agenda.pairwise_idxOf hg.nodup_nodes

/-- **A topological order has every node once, and every edge points forward in it.** -/
theorem WellFormed.topological_iff {g : Graph α} (hg : g.WellFormed) {o : List α} : g.Topological o ↔
    o.Nodup ∧ (∀ n, n ∈ o ↔ n ∈ g.nodes) ∧ ∀ u v, g.hasEdge u v = true → o.idxOf u < o.idxOf v := by
  constructor
  · intro ho
    exact ⟨ho.nodup hg, fun n => ho.perm.mem_iff, fun u v h => ho.edge_lt hg (hasEdge_iff.1 h)⟩
  · rintro ⟨hnd, hmem, hedge⟩
    refine ⟨(List.perm_ext_iff_of_nodup hnd hg.nodup_nodes).2 hmem, ?_, fun x hx => ?_⟩
    · rw [List.pairwise_iff_getElem]
      intro i j hi hj hij h
      have hlt := hedge _ _ (hasEdge_iff.2 h)
      rw [hnd.idxOf_getElem, hnd.idxOf_getElem] at hlt
      omega
    · exact Nat.lt_irrefl _ (hedge x x (hasEdge_iff.2 hx))

/-- **The enumeration is exact.**  There is one list of orders of which every search that is stopped gives the first
ones.  It holds exactly the lists that have every node once with every edge pointing forward, each once and in strictly
increasing order by the age of their nodes.  A cyclic graph has none, and the empty graph has the empty one.  They are
what the search that counts parents down and up again hands on, one after the other, to a consumer that may want no
more, and of which one that tests each order keeps what the search over the agenda finds at once. -/
theorem topologicalOrders_exact {g : Graph α} (hg : g.Built) : ∃ all : List (List α),
    (∀ limit, g.topologicalOrders limit = all.take limit) ∧
    (∀ o, o ∈ all ↔ o.Nodup ∧ (∀ n, n ∈ o ↔ n ∈ g.nodes) ∧
      ∀ u v, g.hasEdge u v = true → o.idxOf u < o.idxOf v) ∧
    all.Nodup ∧
    all.Pairwise (fun o o' => o.map (fun n => g.nodes.idxOf n) < o'.map (fun n => g.nodes.idxOf n)) ∧
    ((∃ n, g.reaches n n = true) → all = []) ∧
    (g.nodes = [] → all = [[]]) ∧
    (∀ (σ : Type) (take : σ → List α → Bool × σ) (s : σ), g.enumerate take s = feed take s all) ∧
    ∀ (fits : Nat → α → Bool) (limit : Nat),
      (g.enumerate (keep (Agenda.placedFrom fits 0) limit) []).2 = g.agenda.ordersWhere fits limit 0 := by
  have hw := hg.wellFormed
  have hsorted := hw.sorted_completions
  refine ⟨g.agenda.completions, g.topologicalOrders_eq, fun o => ?_, ?_, hsorted, ?_, fun hnil => ?_,
    fun σ => hw.enumerate_eq, hw.enumerate_keep⟩
  · rw [hw.mem_completions_agenda, hw.topological_iff]
  · refine hsorted.imp ?_
    rintro o o' hlt rfl
    exact lt_irrefl _ hlt
  · rintro ⟨n, hn⟩
    rw [List.eq_nil_iff_forall_not_mem]
    intro o ho
    exact (hw.mem_completions_agenda.1 ho).acyclic hw n (reaches_iff.1 hn)
  · rw [agenda, hnil, List.map_nil, Agenda.completions_nil]

/-- Two nodes between a first and a last one. -/
def diamond : Graph Nat := run [.addEdge 1 2, .addEdge 1 3, .addEdge 2 4, .addEdge 3 4]

/-- The two nodes in the middle of a diamond come in either order, and nothing comes before its first node. -/
theorem topologicalOrders_exact_diamond : diamond.Built ∧ ∃ all : List (List Nat),
    (∀ limit, diamond.topologicalOrders limit = all.take limit) ∧ [1, 2, 3, 4] ∈ all ∧ [1, 3, 2, 4] ∈ all ∧
      [2, 1, 3, 4] ∉ all := by
  have hb : diamond.Built := ⟨_, rfl⟩
  obtain ⟨all, hall, hmem, -⟩ := topologicalOrders_exact hb
  have htest : ∀ o, diamond.isTopologicalOrder o = true ↔ o ∈ all := fun o => by
    rw [hb.wellFormed.isTopologicalOrder_iff, hb.wellFormed.topological_iff, hmem]
  exact ⟨hb, all, hall, (htest _).1 (by decide), (htest _).1 (by decide), fun h => absurd ((htest _).2 h) (by decide)⟩

end Graph
end LoopNest
