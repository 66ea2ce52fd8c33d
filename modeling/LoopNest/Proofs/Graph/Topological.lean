import Mathlib.Data.List.Perm.Subperm
import LoopNest.Proofs.Graph.Enumeration
import LoopNest.Proofs.Graph.Reach
/-!
# Proofs.Graph.Topological — the topological orders of a graph

An order is topological when it lists every node once and no edge leads from a later node to an earlier one or from a
node to itself.  These are the orders that the test accepts (`isTopologicalOrder_iff`) and the completions of the
graph's agenda (`mem_completions_agenda`); there is one exactly if the graph is acyclic (`exists_topological_iff`).
-/
namespace LoopNest
namespace Graph

variable {α : Type}

/-- **A topological order.** -/
structure Topological (g : Graph α) (o : List α) : Prop where
  perm : o.Perm g.nodes
  forward : o.Pairwise (fun x y => ¬ g.Edge y x)
  loopless : ∀ x, ¬ g.Edge x x

theorem Topological.nodup {g : Graph α} {o : List α} (ho : g.Topological o) (hg : g.WellFormed) : o.Nodup :=
  ho.perm.nodup_iff.2 hg.nodup_nodes

variable [DecidableEq α]

/-! ## Positions in a list without repetition -/

theorem idxOf_lt_of_pairwise {R : α → α → Prop} {o : List α} (ho : o.Pairwise R) {x y : α} (hx : x ∈ o) (hy : y ∈ o)
    (hxy : x ≠ y) (hR : ¬ R y x) : o.idxOf x < o.idxOf y := by
  by_contra hlt
  have hxl := List.idxOf_lt_length_of_mem hx
  have hyl := List.idxOf_lt_length_of_mem hy
  have hne : o.idxOf x ≠ o.idxOf y := fun h => hxy ((List.idxOf_inj hx).1 h)
  have := List.pairwise_iff_getElem.1 ho (o.idxOf y) (o.idxOf x) hyl hxl (by omega)
  rw [List.getElem_idxOf, List.getElem_idxOf] at this
  exact hR this

/-- In a list without repetition, the members of a tail are those with a position in it. -/
theorem mem_drop_iff_idxOf {o : List α} (ho : o.Nodup) {k : Nat} {x : α} :
    x ∈ o.drop k ↔ x ∈ o ∧ k ≤ o.idxOf x := by
  constructor
  · intro h
    obtain ⟨i, hi, rfl⟩ := List.mem_drop_iff_getElem.1 h
    rw [ho.idxOf_getElem]
    exact ⟨List.getElem_mem _, by omega⟩
  · rintro ⟨hx, hk⟩
    have hl := List.idxOf_lt_length_of_mem hx
    refine List.mem_drop_iff_getElem.2 ⟨o.idxOf x - k, by omega, ?_⟩
    have hidx : k + (o.idxOf x - k) = o.idxOf x := by omega
    simp only [hidx, List.getElem_idxOf]

/-- In a list without repetition, a member comes before another exactly if its position is smaller. -/
theorem sublist_pair_iff_idxOf {o : List α} (ho : o.Nodup) {u v : α} :
    [u, v].Sublist o ↔ u ∈ o ∧ v ∈ o ∧ o.idxOf u < o.idxOf v := by
  constructor
  · intro h
    obtain ⟨before, after, rfl, hu, hv⟩ := List.cons_sublist_iff.1 h
    have hv := List.singleton_sublist.1 hv
    have hvb : v ∉ before := fun hvb => (List.nodup_append.1 ho).2.2 v hvb v hv rfl
    refine ⟨List.mem_append_left _ hu, List.mem_append_right _ hv, ?_⟩
    rw [List.idxOf_append_of_mem hu, List.idxOf_append_of_notMem hvb]
    have := List.idxOf_lt_length_of_mem hu
    omega
  · rintro ⟨hu, hv, hlt⟩
    have hv' : v ∈ o.drop (o.idxOf v) := (mem_drop_iff_idxOf ho).2 ⟨hv, Nat.le_refl _⟩
    have hu' : u ∈ o.take (o.idxOf v) := by
      rw [← List.take_append_drop (o.idxOf v) o, List.mem_append] at hu
      refine hu.resolve_right fun hdrop => ?_
      have := ((mem_drop_iff_idxOf ho).1 hdrop).2
      omega
    have hsub := (List.singleton_sublist.2 hu').append (List.singleton_sublist.2 hv')
    rwa [List.take_append_drop] at hsub

/-! ## Edges and paths point forward -/

theorem Topological.edge_lt {g : Graph α} {o : List α} (ho : g.Topological o) (hg : g.WellFormed) {u v : α}
    (h : g.Edge u v) : o.idxOf u < o.idxOf v := by
  refine idxOf_lt_of_pairwise ho.forward (ho.perm.mem_iff.2 (hg.start_mem h)) (ho.perm.mem_iff.2 (hg.end_mem h)) ?_ ?_
  · rintro rfl; exact ho.loopless _ h
  · exact fun hn => hn h

/-- **Along a path the positions grow.** -/
theorem Topological.path_lt {g : Graph α} {o : List α} (ho : g.Topological o) (hg : g.WellFormed) {u v : α}
    (h : g.Path u v) : o.idxOf u < o.idxOf v := by
  induction h with
  | single h => exact ho.edge_lt hg h
  | tail _ h ih => exact Nat.lt_trans ih (ho.edge_lt hg h)

theorem Topological.path_sublist {g : Graph α} {o : List α} (ho : g.Topological o) (hg : g.WellFormed) {u v : α}
    (h : g.Path u v) : [u, v].Sublist o := by
  rw [sublist_pair_iff_idxOf (ho.nodup hg)]
  exact ⟨ho.perm.mem_iff.2 (hg.path_start h), ho.perm.mem_iff.2 (hg.path_end h), ho.path_lt hg h⟩

theorem Topological.acyclic {g : Graph α} {o : List α} (ho : g.Topological o) (hg : g.WellFormed) : g.Acyclic :=
  fun _ hn => Nat.lt_irrefl _ (ho.path_lt hg hn)

/-- **The test accepts exactly the topological orders.** -/
theorem WellFormed.isTopologicalOrder_iff {g : Graph α} (hg : g.WellFormed) {o : List α} :
    g.isTopologicalOrder o = true ↔ g.Topological o := by
  unfold isTopologicalOrder
  simp only [Bool.and_eq_true, decide_eq_true_eq, List.all_eq_true]
  constructor
  · rintro ⟨⟨⟨hlen, hnd⟩, hmem⟩, hedge⟩
    have hsub : g.nodes.Subperm o := hg.nodup_nodes.subperm (fun n hn => hmem n hn)
    refine ⟨(hsub.perm_of_length_le (by omega)).symm, ?_, fun x hx => Nat.lt_irrefl _ (hedge (x, x) hx)⟩
    rw [List.pairwise_iff_getElem]
    intro i j hi hj hij h
    have := hedge _ h
    rw [hnd.idxOf_getElem, hnd.idxOf_getElem] at this
    omega
  · intro ho
    exact ⟨⟨⟨ho.perm.length_eq, ho.nodup hg⟩, fun n hn => ho.perm.mem_iff.2 hn⟩, fun e he => ho.edge_lt hg he⟩

/-! ## The agenda of a graph -/

theorem keys_agenda (g : Graph α) : g.agenda.keys = g.nodes := by
  unfold agenda Agenda.keys
  rw [List.map_map]
  exact List.map_id g.nodes

theorem WellFormed.waits_agenda {g : Graph α} (hg : g.WellFormed) {y x : α} : g.agenda.Waits y x ↔ g.Edge x y := by
  unfold agenda Agenda.Waits
  constructor
  · rintro ⟨e, he, rfl, hx⟩
    obtain ⟨n, -, rfl⟩ := List.mem_map.1 he
    exact mem_parents.1 hx
  · intro h
    exact ⟨(y, g.parents y), List.mem_map.2 ⟨y, hg.end_mem h, rfl⟩, rfl, mem_parents.2 h⟩

theorem WellFormed.closed_agenda {g : Graph α} (hg : g.WellFormed) : g.agenda.Closed where
  nodup_keys := by rw [keys_agenda]; exact hg.nodup_nodes
  waits_mem h := by rw [keys_agenda]; exact hg.start_mem (hg.waits_agenda.1 h)

/-- **The completions of the agenda are the topological orders.** -/
theorem WellFormed.mem_completions_agenda {g : Graph α} (hg : g.WellFormed) {o : List α} :
    o ∈ g.agenda.completions ↔ g.Topological o := by
  rw [Agenda.mem_completions, hg.closed_agenda.admits_iff, keys_agenda]
  simp only [hg.waits_agenda]
  exact ⟨fun h => ⟨h.1, h.2.1, h.2.2⟩, fun h => ⟨h.perm, h.forward, h.loopless⟩⟩

/-! ## Acyclic graphs have an order -/

/-- An edge that starts on no cycle has more nodes before its end than before its start. -/
theorem WellFormed.countP_lt {g : Graph α} (hg : g.WellFormed) {u v : α} (h : g.Edge u v) (hu : ¬ g.Path u u) :
    g.nodes.countP (fun a => g.reaches a u) < g.nodes.countP (fun a => g.reaches a v) := by
  rw [List.countP_eq_length_filter, List.countP_eq_length_filter]
  have hsub : g.nodes.filter (fun a => g.reaches a u) =
      (g.nodes.filter (fun a => g.reaches a v)).filter (fun a => g.reaches a u) := by
    rw [List.filter_filter]
    refine List.filter_congr (fun a _ => ?_)
    cases hr : g.reaches a u with
    | false => simp
    | true => rw [reaches_iff.2 ((reaches_iff.1 hr).trans h.path)]; rfl
  rw [hsub]
  refine List.length_filter_lt_length_iff_exists.2 ⟨u, List.mem_filter.2 ⟨hg.start_mem h, reaches_iff.2 h.path⟩, ?_⟩
  exact fun hr => hu (reaches_iff.1 hr)

/-- **There is a topological order exactly if the graph is acyclic**: sort the nodes by how many come before. -/
theorem WellFormed.exists_topological_iff {g : Graph α} (hg : g.WellFormed) : (∃ o, g.Topological o) ↔ g.Acyclic := by
  refine ⟨fun ⟨o, ho⟩ => ho.acyclic hg, fun ha => ?_⟩
  let before (x : α) : Nat := g.nodes.countP (fun a => g.reaches a x)
  refine ⟨g.nodes.mergeSort (fun x y => decide (before x ≤ before y)), List.mergeSort_perm _ _, ?_, ?_⟩
  · have hs : (g.nodes.mergeSort (fun x y => decide (before x ≤ before y))).Pairwise
        (fun x y => decide (before x ≤ before y) = true) :=
      List.pairwise_mergeSort (fun a b c h1 h2 => by simp only [decide_eq_true_eq] at *; omega)
        (fun a b => by simp only [Bool.or_eq_true, decide_eq_true_eq]; omega) g.nodes
    refine hs.imp ?_
    intro x y hxy h
    have := hg.countP_lt h (ha y)
    simp only [decide_eq_true_eq, before] at hxy
    omega
  · exact fun x hx => ha x hx.path

end Graph
end LoopNest
