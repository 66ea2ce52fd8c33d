import LoopNest.Proofs.Graph.Kahn
import LoopNest.Flow.Schedule
/-!
# Proofs.Flow.Placement — what it means that every loop is in its place

An order is scheduled when it is topological and every loop stands at its required index.  This is what the check of an
order accepts (`scheduleProblem?_eq_none_iff`), and it says that after a loop come exactly the nodes that it reaches
(`Scheduled.after_iff`).  Exhaustive search finds the least such order (`scheduleExhaustive_of_least`).
-/
namespace LoopNest
namespace Flow

open LoopNest.Graph (WellFormed Topological mem_descendants nodup_descendants mem_drop_iff_idxOf)
open Agenda (placedFrom positions)

/-- **An order with every loop in its place.** -/
structure Scheduled (g : Graph Node) (o : List Node) : Prop where
  topological : g.Topological o
  placed : ∀ l ∈ o, l.isLoop = true → requiredIndex g l = (o.idxOf l : Int)

theorem mem_zipIdx_iff_idxOf {o : List Node} (ho : o.Nodup) {n : Node} {i : Nat} :
    (n, i) ∈ o.zipIdx ↔ n ∈ o ∧ o.idxOf n = i := by
  rw [List.mem_zipIdx_iff_getElem?]
  dsimp only
  constructor
  · intro h
    obtain ⟨hi, rfl⟩ := List.getElem?_eq_some_iff.1 h
    exact ⟨List.getElem_mem hi, ho.idxOf_getElem i hi⟩
  · rintro ⟨hn, rfl⟩
    rw [List.getElem?_eq_getElem (List.idxOf_lt_length_of_mem hn), List.getElem_idxOf]

/-- **The check accepts exactly the scheduled orders.** -/
theorem scheduleProblem?_eq_none_iff {g : Graph Node} (hg : g.WellFormed) {o : List Node} :
    scheduleProblem? g o = none ↔ Scheduled g o := by
  unfold scheduleProblem?
  split
  · rename_i h
    have ht := hg.isTopologicalOrder_iff.1 h
    rw [List.findSome?_eq_none_iff]
    constructor
    · intro hall
      refine ⟨ht, fun l hl hloop => ?_⟩
      have := hall (l, o.idxOf l) ((mem_zipIdx_iff_idxOf (ht.nodup hg)).2 ⟨hl, rfl⟩)
      simpa [hloop] using this
    · rintro ⟨-, hp⟩ ⟨n, i⟩ hni
      obtain ⟨hn, rfl⟩ := (mem_zipIdx_iff_idxOf (ht.nodup hg)).1 hni
      by_cases hloop : n.isLoop = true
      · simp [hloop, hp n hn hloop]
      · simp [hloop]
  · rename_i h
    constructor
    · intro hc; cases hc
    · intro hs; exact absurd (hg.isTopologicalOrder_iff.2 hs.topological) h

/-- In a topological order all that a node reaches comes after it. -/
theorem descendants_subset_drop {g : Graph Node} (hg : g.WellFormed) {o : List Node} (ho : g.Topological o) (l : Node) :
    g.descendants l ⊆ o.drop (o.idxOf l + 1) := by
  intro x hx
  have hp := mem_descendants.1 hx
  rw [mem_drop_iff_idxOf (ho.nodup hg)]
  exact ⟨ho.perm.mem_iff.2 (hg.path_end hp), ho.path_lt hg hp⟩

/-- **After a loop in its place come exactly the nodes that it reaches**: they all come after it, and there is no room
for more. -/
theorem Scheduled.after_iff {g : Graph Node} (hg : g.WellFormed) {o : List Node} (hs : Scheduled g o) {l x : Node}
    (hl : l ∈ o) (hloop : l.isLoop = true) (hx : x ∈ o) : o.idxOf l < o.idxOf x ↔ g.Path l x := by
  have ho := hs.topological
  refine ⟨fun h => ?_, ho.path_lt hg⟩
  have hsub := (nodup_descendants g l).subperm (descendants_subset_drop hg ho l)
  have hlen : (o.drop (o.idxOf l + 1)).length ≤ (g.descendants l).length := by
    have hreq := hs.placed l hl hloop
    have hn := ho.perm.length_eq
    unfold requiredIndex Graph.nodeCount at hreq
    rw [List.length_drop]
    omega
  have hperm := hsub.perm_of_length_le hlen
  exact mem_descendants.1 (hperm.mem_iff.2 ((mem_drop_iff_idxOf (ho.nodup hg)).2 ⟨hx, h⟩))

/-- A loop that has exactly the nodes that it reaches after it is in its place. -/
theorem requiredIndex_eq_of_after {g : Graph Node} (hg : g.WellFormed) {o : List Node} (ho : g.Topological o) {l : Node}
    (hl : l ∈ o) (h : ∀ x ∈ o, o.idxOf l < o.idxOf x → g.Path l x) : requiredIndex g l = (o.idxOf l : Int) := by
  have hnd := ho.nodup hg
  have hperm : (g.descendants l).Perm (o.drop (o.idxOf l + 1)) := by
    refine ((nodup_descendants g l).subperm (descendants_subset_drop hg ho l)).antisymm
      ((hnd.sublist (List.drop_sublist _ _)).subperm ?_)
    intro x hx
    obtain ⟨hxo, hlt⟩ := (mem_drop_iff_idxOf hnd).1 hx
    exact mem_descendants.2 (h x hxo hlt)
  have hlen := hperm.length_eq
  have hn := ho.perm.length_eq
  have hlt := List.idxOf_lt_length_of_mem hl
  rw [List.length_drop] at hlen
  unfold requiredIndex Graph.nodeCount
  omega

/-! ## Exhaustive search -/

theorem placedFrom_iff {fits : Nat → Node → Bool} : ∀ {o : List Node} {i : Nat},
    placedFrom fits i o = true ↔ ∀ (j : Nat) (hj : j < o.length), fits (i + j) o[j] = true
  | [], i => by simp [placedFrom]
  | n :: o, i => by
    unfold placedFrom
    rw [Bool.and_eq_true, placedFrom_iff]
    constructor
    · rintro ⟨h0, h⟩ j hj
      cases j with
      | zero => exact h0
      | succ j =>
        have := h j (by simpa using hj)
        rwa [Nat.add_right_comm] at this
    · intro h
      refine ⟨h 0 (by simp), fun j hj => ?_⟩
      have := h (j + 1) (by simpa using hj)
      rwa [← Nat.add_assoc, Nat.add_right_comm] at this

/-- What exhaustive search tests of a node and an index. -/
def inPlace (g : Graph Node) (i : Nat) (n : Node) : Bool :=
  (List.lookup n ((g.nodes.filter Node.isLoop).map (fun l => (l, requiredIndex g l)))).all
    (fun want => decide (want = (i : Int)))

theorem inPlace_iff {g : Graph Node} {i : Nat} {n : Node} (hn : n ∈ g.nodes) :
    inPlace g i n = true ↔ (n.isLoop = true → requiredIndex g n = (i : Int)) := by
  unfold inPlace
  rw [lookup_map]
  by_cases hl : n.isLoop = true
  · simp [hn, hl]
  · simp [hl]

/-- **What the search lists**: the topological orders with every loop in its place. -/
theorem mem_filter_placed {g : Graph Node} (hg : g.WellFormed) {o : List Node} :
    o ∈ g.agenda.completions.filter (placedFrom (inPlace g) 0) ↔ Scheduled g o := by
  rw [List.mem_filter, hg.mem_completions_agenda, placedFrom_iff]
  constructor
  · rintro ⟨ho, hp⟩
    refine ⟨ho, fun l hl => ?_⟩
    have := hp (o.idxOf l) (List.idxOf_lt_length_of_mem hl)
    rw [Nat.zero_add, List.getElem_idxOf] at this
    exact (inPlace_iff (ho.perm.mem_iff.1 hl)).1 this
  · rintro ⟨ho, hp⟩
    refine ⟨ho, fun j hj => ?_⟩
    have hmem := List.getElem_mem hj
    rw [Nat.zero_add, inPlace_iff (ho.perm.mem_iff.1 hmem)]
    intro hloop
    rw [hp _ hmem hloop, (ho.nodup hg).idxOf_getElem]

theorem topologicalOrderWhere?_eq (g : Graph Node) (fits : Nat → Node → Bool) :
    g.topologicalOrderWhere? fits = (g.agenda.completions.filter (placedFrom fits 0)).head? := by
  unfold Graph.topologicalOrderWhere?
  rw [Agenda.ordersWhere_eq]
  cases g.agenda.completions.filter (placedFrom fits 0) <;> rfl

/-- Exhaustive search finds the first completion with every loop in its place. -/
theorem scheduleExhaustive_eq (g : Graph Node) : scheduleExhaustive g =
    match (g.agenda.completions.filter (placedFrom (inPlace g) 0)).head? with
    | some o => .ok o
    | none => .error .noOrder := by
  rw [← topologicalOrderWhere?_eq]
  rfl

theorem scheduled_of_exhaustive {g : Graph Node} (hg : g.WellFormed) {o : List Node}
    (h : scheduleExhaustive g = .ok o) : Scheduled g o := by
  rw [scheduleExhaustive_eq] at h
  split at h
  · rename_i o' ho'
    rw [Except.ok.injEq] at h
    exact (mem_filter_placed hg).1 (List.mem_of_head? (h ▸ ho'))
  · cases h

/-- **Exhaustive search finds the least scheduled order**, by the positions of the nodes in the graph. -/
theorem scheduleExhaustive_of_least {g : Graph Node} (hg : g.WellFormed) {o : List Node} (hs : Scheduled g o)
    (hleast : ∀ o', Scheduled g o' → ¬ positions g.nodes o' < positions g.nodes o) : scheduleExhaustive g = .ok o := by
  have hsorted : (g.agenda.completions.filter (placedFrom (inPlace g) 0)).Pairwise
      (fun o o' => positions g.nodes o < positions g.nodes o') := hg.sorted_completions.filter _
  have hhead : (g.agenda.completions.filter (placedFrom (inPlace g) 0)).head? = some o := by
    cases hL : g.agenda.completions.filter (placedFrom (inPlace g) 0) with
    | nil =>
      have := (mem_filter_placed hg).2 hs
      rw [hL] at this
      cases this
    | cons x L =>
      have hx : Scheduled g x := (mem_filter_placed hg).1 (by rw [hL]; exact List.mem_cons_self)
      have ho := (mem_filter_placed hg).2 hs
      rw [hL] at ho hsorted
      rcases List.mem_cons.1 ho with rfl | ho
      · rfl
      · exact absurd ((List.pairwise_cons.1 hsorted).1 o ho) (hleast x hx)
  rw [scheduleExhaustive_eq, hhead]

theorem scheduleExhaustive_of_none {g : Graph Node} (hg : g.WellFormed) (h : ∀ o, ¬ Scheduled g o) :
    scheduleExhaustive g = .error .noOrder := by
  have hnil : g.agenda.completions.filter (placedFrom (inPlace g) 0) = [] := by
    rw [List.eq_nil_iff_forall_not_mem]
    exact fun o ho => h o ((mem_filter_placed hg).1 ho)
  rw [scheduleExhaustive_eq, hnil]
  rfl

end Flow
end LoopNest
