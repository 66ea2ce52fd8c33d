import Mathlib
import LoopNest.Proofs.Graph.Orders
import LoopNest.Proofs.Graph.Reduction
import LoopNest.Proofs.Flow.Refinement
/-!
# Proofs.Flow.Schedulability — which graphs have a schedule, and what it is told by

The check of an order says in terms of positions and counts what is meant in terms of paths (`scheduleProblem_exact`).
A graph has a schedule exactly if it is acyclic and any two of its loops are on a path (`schedulable_iff`); neither the
sorting of a layer nor the check of the order can fail then.  All of this is told by the nodes and the paths, so graphs
that agree in both have the same schedule, or are refused for the same reason (`schedule_eq_of_samePaths`).
-/
namespace LoopNest
namespace Flow

open LoopNest.Graph (WellFormed SamePaths mem_descendants sublist_pair_iff_idxOf)
open Agenda (positions)

/-! ## The check of an order -/

/-- **The check accepts an order exactly if** it has every node once, every edge points forward in it, and after each
loop come exactly the nodes that the loop reaches. -/
theorem scheduleProblem_exact {g : Graph Node} (hg : g.Built) (order : List Node) : scheduleProblem? g order = none ↔
    order.Perm g.nodes ∧ (∀ u v, g.Edge u v → [u, v].Sublist order) ∧
      ∀ l ∈ g.nodes, l.isLoop = true → ∀ x, [l, x].Sublist order ↔ g.Path l x := by
  have hw := hg.wellFormed
  rw [scheduleProblem?_eq_none_iff hw]
  constructor
  · intro hs
    have ho := hs.topological
    refine ⟨ho.perm, fun u v h => ho.path_sublist hw h.path, fun l hl hloop x => ⟨fun h => ?_, ho.path_sublist hw⟩⟩
    obtain ⟨hlo, hxo, hlt⟩ := (sublist_pair_iff_idxOf (ho.nodup hw)).1 h
    exact (hs.after_iff hw hlo hloop hxo).1 hlt
  · rintro ⟨hperm, hedge, hafter⟩
    have hnd := hperm.nodup_iff.2 hw.nodup_nodes
    have ho : g.Topological order := by
      refine hw.topological_iff.2 ⟨hnd, fun n => hperm.mem_iff, fun u v h => ?_⟩
      exact ((sublist_pair_iff_idxOf hnd).1 (hedge u v (Graph.hasEdge_iff.1 h))).2.2
    refine ⟨ho, fun l hl hloop => requiredIndex_eq_of_after hw ho hl fun x hx hlt => ?_⟩
    exact (hafter l (hperm.mem_iff.1 hl) hloop x).1 ((sublist_pair_iff_idxOf hnd).2 ⟨hl, hx, hlt⟩)

/-- An order of two loops that is accepted has after the inner loop what that loop reaches; with a node twice in the
place of another it is not accepted. -/
theorem scheduleProblem_exact_twoLoops : (Graph.run twoLoops).Built ∧
    (∀ x, [.loop "J", x].Sublist
        [.fromFiber "A" "K", .other .output, .loop "I", .fromFiber "B" "K", .loop "J", .other .body] ↔
      (Graph.run twoLoops).Path (.loop "J") x) ∧
    scheduleProblem? (Graph.run twoLoops)
      [.fromFiber "A" "K", .fromFiber "A" "K", .loop "I", .fromFiber "B" "K", .loop "J", .other .body] ≠ none := by
  have hb : (Graph.run twoLoops).Built := ⟨_, rfl⟩
  have hok : scheduleProblem? (Graph.run twoLoops)
      [.fromFiber "A" "K", .other .output, .loop "I", .fromFiber "B" "K", .loop "J", .other .body] = none := by cbv
  refine ⟨hb, ((scheduleProblem_exact hb _).1 hok).2.2 (.loop "J") (by decide +kernel) rfl, fun h => ?_⟩
  have hperm := ((scheduleProblem_exact hb _).1 h).1
  exact absurd (hperm.nodup_iff.2 hb.wellFormed.nodup_nodes) (by decide)

/-! ## Loops by their required index -/

/-- The loops of a graph by their required index, those with the same index as they were added. -/
def loopsByIndex (g : Graph Node) : List Node :=
  (g.nodes.filter Node.isLoop).mergeSort (fun a b => decide (requiredIndex g a ≤ requiredIndex g b))

theorem nests_eq (g : Graph Node) : nests g = (loopsByIndex g).map (fun l => ⟨l, g.descendants l⟩) := by
  unfold nests loopsByIndex
  rw [← List.map_mergeSort (r := fun a b => decide (requiredIndex g a ≤ requiredIndex g b)) (fun _ _ _ _ => rfl),
    List.map_map]
  rfl

theorem nests_loops_eq (g : Graph Node) : (nests g).map Nest.loop = loopsByIndex g := by
  rw [nests_eq, List.map_map]
  exact List.map_id _

theorem apart?_eq_some : ∀ {ns : List Nest} {p : Node × Node}, apart? ns = some p →
    ∃ pre a b post, ns = pre ++ a :: b :: post ∧ b.loop ∉ a.inside ∧ p = (a.loop, b.loop)
  | [], _, h => by cases h
  | [_], _, h => by cases h
  | a :: b :: ns, p, h => by
    rw [apart?] at h
    split at h
    · obtain ⟨pre, c, d, post, hns, hcd, hp⟩ := apart?_eq_some h
      exact ⟨a :: pre, c, d, post, by rw [hns]; rfl, hcd, hp⟩
    · rename_i hab
      exact ⟨[], a, b, ns, rfl, hab, (Option.some.inj h).symm⟩

/-- **The loops that are named are neighbours, and neither is inside the other**: the second not by the test, the first
because it comes first. -/
theorem neighbours_of_apart {g : Graph Node} (ha : g.Acyclic) {a b : Node} (h : apart? (nests g) = some (a, b)) :
    [a, b] <:+: loopsByIndex g ∧ ¬ g.Path a b ∧ ¬ g.Path b a := by
  obtain ⟨pre, c, d, post, hns, hcd, hp⟩ := apart?_eq_some h
  obtain ⟨rfl, rfl⟩ := Prod.mk.inj hp
  have hc : c ∈ nests g := by rw [hns]; simp
  refine ⟨⟨pre.map Nest.loop, post.map Nest.loop, ?_⟩, fun hp => hcd ((mem_inside_iff hc).2 hp), fun hp => ?_⟩
  · rw [← nests_loops_eq, hns]
    simp
  · have hsorted := nests_sorted g
    rw [hns] at hsorted
    have hle := (List.pairwise_cons.1 (List.pairwise_append.1 hsorted).2.1).1 d List.mem_cons_self
    have hlt := length_descendants_lt ha hp
    unfold requiredIndex at hle
    omega

/-! ## Graphs with a schedule -/

theorem nested_iff {g : Graph Node} (hg : g.WellFormed) : Nested g ↔ g.Acyclic ∧
    ∀ a ∈ g.nodes, a.isLoop = true → ∀ b ∈ g.nodes, b.isLoop = true → a ≠ b → g.Path a b ∨ g.Path b a := by
  refine ⟨fun hn => ⟨hn.acyclic, fun a ha hal b hb hbl hab => ?_⟩, fun h => nested_of_comparable hg h.1 h.2⟩
  obtain ⟨c, hc, rfl⟩ := exists_nest_iff.2 ⟨ha, hal⟩
  obtain ⟨d, hd, rfl⟩ := exists_nest_iff.2 ⟨hb, hbl⟩
  have : Std.Symm (fun c d : Nest => g.Path c.loop d.loop ∨ g.Path d.loop c.loop) := ⟨fun _ _ => Or.symm⟩
  have hpairs : (nests g).Pairwise (fun c d => g.Path c.loop d.loop ∨ g.Path d.loop c.loop) := hn.chain.imp Or.inl
  exact hpairs.forall hc hd (fun h => hab (congrArg Nest.loop h))

theorem schedule_eq_ok_iff {g : Graph Node} (hg : g.WellFormed) : (∃ o, schedule g = .ok o) ↔ Nested g := by
  constructor
  · rintro ⟨o, ho⟩
    by_contra hn
    rcases schedule_of_not_nested hg hn with h | ⟨a, b, h⟩
    · rw [ho] at h; cases h
    · rw [ho] at h; cases h
  · intro hn
    obtain ⟨o, ho, -⟩ := schedule_of_nested hg hn
    exact ⟨o, ho⟩

/-- **A refusal has one of two reasons.** -/
theorem schedule_eq_error {g : Graph Node} (hg : g.WellFormed) {e : Problem} (h : schedule g = .error e) :
    (e = .cyclic ∧ ¬ g.Acyclic) ∨
      ∃ a b, e = .loopsApart a b ∧ [a, b] <:+: loopsByIndex g ∧ ¬ g.Path a b ∧ ¬ g.Path b a := by
  by_cases ha : g.Acyclic
  · cases hap : apart? (nests g) with
    | none =>
      obtain ⟨o, ho⟩ := (schedule_eq_ok_iff hg).2 ⟨ha, (apart?_nests_eq_none_iff g).1 hap⟩
      rw [ho] at h
      cases h
    | some p =>
      rw [schedule_of_apart hg ha hap] at h
      cases h
      exact Or.inr ⟨p.1, p.2, rfl, neighbours_of_apart ha hap⟩
  · rw [schedule_of_cyclic hg ha] at h
    cases h
    exact Or.inl ⟨rfl, ha⟩

/-- What the check says about an order is that it is none, or that a loop is not in its place. -/
theorem scheduleProblem?_eq_some {g : Graph Node} {o : List Node} {e : Problem} (h : scheduleProblem? g o = some e) :
    (∃ m n, e = .notAnOrder m n) ∨ ∃ l i k, e = .misplaced l i k := by
  unfold scheduleProblem? at h
  split at h
  · obtain ⟨p, -, hp⟩ := List.exists_of_findSome?_eq_some h
    dsimp only at hp
    split_ifs at hp
    exact Or.inr ⟨_, _, _, (Option.some.inj hp).symm⟩
  · exact Or.inl ⟨_, _, (Option.some.inj h).symm⟩

/-- **A graph has a schedule exactly if it is acyclic and of any two loops one reaches the other.**  When it has none,
this is for a cycle, or for two loops next to each other by their required index of which neither reaches the other;
never because a layer could not be sorted, and never for anything that the check finds wrong with an order. -/
theorem schedulable_iff {g : Graph Node} (hg : g.Built) :
    ((∃ o, schedule g = .ok o) ↔ g.Acyclic ∧
      ∀ a ∈ g.nodes, a.isLoop = true → ∀ b ∈ g.nodes, b.isLoop = true → a ≠ b → g.Path a b ∨ g.Path b a) ∧
    (∀ e, schedule g = .error e → (e = .cyclic ∧ ¬ g.Acyclic) ∨
      ∃ a b, e = .loopsApart a b ∧ [a, b] <:+: loopsByIndex g ∧ ¬ g.Path a b ∧ ¬ g.Path b a) ∧
    (∀ k, schedule g ≠ .error (.layerCyclic k)) ∧
    (∀ o e, scheduleProblem? g o = some e → schedule g ≠ .error e) := by
  have hw := hg.wellFormed
  refine ⟨(schedule_eq_ok_iff hw).trans (nested_iff hw), fun e => schedule_eq_error hw, fun k h => ?_,
    fun o e he h => ?_⟩
  · rcases schedule_eq_error hw h with ⟨hk, -⟩ | ⟨a, b, hk, -⟩ <;> cases hk
  · -- what the check says is neither of the two reasons
    rcases scheduleProblem?_eq_some he with ⟨m, n, rfl⟩ | ⟨l, i, k, rfl⟩ <;>
      rcases schedule_eq_error hw h with ⟨hk, -⟩ | ⟨a, b, hk, -⟩ <;> cases hk

/-- Two loops and nothing else. -/
def looseLoops : List (Graph.Operation Node) := [.addNode (.loop "I"), .addNode (.loop "J")]

/-- Two loops that are scheduled are on a path, and two loops without a path are not scheduled. -/
theorem schedulable_twoLoops : (Graph.run twoLoops).Built ∧
    ((Graph.run twoLoops).Path (.loop "I") (.loop "J") ∨ (Graph.run twoLoops).Path (.loop "J") (.loop "I")) ∧
    (Graph.run looseLoops).Built ∧ ¬ ∃ o, schedule (Graph.run looseLoops) = .ok o := by
  have hb : (Graph.run twoLoops).Built := ⟨_, rfl⟩
  have hb' : (Graph.run looseLoops).Built := ⟨_, rfl⟩
  have hok : schedule (Graph.run twoLoops) =
      .ok [.fromFiber "A" "K", .other .output, .loop "I", .fromFiber "B" "K", .loop "J", .other .body] := by cbv
  have hnone : ∀ u v, ¬ (Graph.run looseLoops).Path u v := by
    intro u v h
    obtain ⟨w, hw, -⟩ := Relation.TransGen.head'_iff.1 h
    cases hw
  have hpaths := ((schedulable_iff hb).1.1 ⟨_, hok⟩).2
  refine ⟨hb, hpaths _ (by decide +kernel) rfl _ (by decide +kernel) rfl (by decide), hb', fun h => ?_⟩
  rcases ((schedulable_iff hb').1.1 h).2 (.loop "I") (by decide) rfl (.loop "J") (by decide) rfl (by decide) with h | h
  · exact hnone _ _ h
  · exact hnone _ _ h

/-! ## Graphs with the same paths -/

section
variable {g h : Graph Node} (hs : g.SamePaths h)
include hs

theorem requiredIndex_eq_of_samePaths (l : Node) : requiredIndex g l = requiredIndex h l := by
  unfold requiredIndex Graph.nodeCount
  rw [hs.nodes_eq, (hs.descendants_perm l).length_eq]

theorem apart?_map_eq_of_samePaths : ∀ ls : List Node,
    apart? (ls.map (fun l => ⟨l, g.descendants l⟩)) = apart? (ls.map (fun l => ⟨l, h.descendants l⟩))
  | [] => rfl
  | [_] => rfl
  | a :: b :: ls => by
    have hab : b ∈ g.descendants a ↔ b ∈ h.descendants a := (hs.descendants_perm a).mem_iff
    have ih := apart?_map_eq_of_samePaths (b :: ls)
    simp only [List.map_cons, apart?, hab] at ih ⊢
    rw [ih]

/-- **The same loops are found apart.** -/
theorem apart?_nests_eq_of_samePaths : apart? (nests g) = apart? (nests h) := by
  have hloops : loopsByIndex g = loopsByIndex h := by
    unfold loopsByIndex
    simp only [hs.nodes_eq, requiredIndex_eq_of_samePaths hs]
  rw [nests_eq, nests_eq, hloops]
  exact apart?_map_eq_of_samePaths hs _

theorem Scheduled.of_samePaths (hg : g.WellFormed) {o : List Node} (ho : Scheduled g o) : Scheduled h o := by
  refine ⟨ho.topological.of_samePaths hg hs, fun l hl hloop => ?_⟩
  rw [← requiredIndex_eq_of_samePaths hs]
  exact ho.placed l hl hloop

/-- **Graphs with the same nodes and the same paths have the same schedule**, since both have the least of the same
orders, or are refused for the same reason. -/
theorem schedule_eq_of_samePaths (hg : g.WellFormed) (hh : h.WellFormed) : schedule g = schedule h := by
  have hacyc := hs.acyclic_iff
  have hapart := apart?_nests_eq_of_samePaths hs
  by_cases ha : g.Acyclic
  · cases hap : apart? (nests g) with
    | some p => rw [schedule_of_apart hg ha hap, schedule_of_apart hh (hacyc.1 ha) (hapart ▸ hap)]
    | none =>
      have hn : Nested g := ⟨ha, (apart?_nests_eq_none_iff g).1 hap⟩
      have hn' : Nested h := ⟨hacyc.1 ha, (apart?_nests_eq_none_iff h).1 (hapart ▸ hap)⟩
      obtain ⟨o, hok, ho, hleast⟩ := schedule_of_nested hg hn
      obtain ⟨o', hok', ho', hleast'⟩ := schedule_of_nested hh hn'
      -- each order is scheduled in both graphs, so neither comes before the other
      have hle := hleast o' (ho'.of_samePaths hs.symm hh)
      have hle' := hleast' o (ho.of_samePaths hs hg)
      rw [← hs.nodes_eq] at hle'
      have heq : positions g.nodes o = positions g.nodes o' := le_antisymm (not_lt.1 hle) (not_lt.1 hle')
      rw [hok, hok', Agenda.positions_inj (fun x hx => ho.topological.perm.mem_iff.1 hx) heq]
  · rw [schedule_of_cyclic hg ha, schedule_of_cyclic hh (mt hacyc.2 ha)]

end

/-- **The schedule is told by the nodes, as they were added, and by what reaches what**: graphs that agree in both are
scheduled alike, or refused alike.  Transitive reduction therefore never changes the schedule of an acyclic graph. -/
theorem schedule_of_reachability {g : Graph Node} (hg : g.Built) :
    (∀ h : Graph Node, h.Built → h.nodes = g.nodes → (∀ u v, h.reaches u v = g.reaches u v) →
      schedule h = schedule g) ∧
    (g.Acyclic → schedule g.reduce.2 = schedule g) := by
  have hw := hg.wellFormed
  refine ⟨fun h hh hnodes hreach => ?_, fun ha => schedule_eq_of_samePaths (hw.samePaths_reduce ha) hw.reduce hw⟩
  refine schedule_eq_of_samePaths ⟨hnodes, fun u v => ?_⟩ hh.wellFormed hw
  rw [← Graph.reaches_iff, ← Graph.reaches_iff, hreach]

/-- The two loops with the edge between them replaced by one to the inner loop from outside of both. -/
def rewiredLoops : List (Graph.Operation Node) :=
  [.addEdge (.fromFiber "A" "K") (.loop "I"), .addEdge (.fromFiber "A" "K") (.loop "J"),
    .addEdge (.loop "J") (.other .body), .addEdge (.loop "I") (.fromFiber "B" "K"),
    .addEdge (.fromFiber "B" "K") (.loop "J"), .addNode (.other .output)]

theorem samePaths_rewiredLoops : (Graph.run rewiredLoops).SamePaths (Graph.run twoLoops) := by
  have hto : (Graph.run rewiredLoops).edges.all (fun e => (Graph.run twoLoops).reaches e.1 e.2) = true := by cbv
  have hfrom : (Graph.run twoLoops).edges.all (fun e => (Graph.run rewiredLoops).reaches e.1 e.2) = true := by cbv
  rw [List.all_eq_true] at hto hfrom
  exact Graph.samePaths_of_edges (by decide +kernel) (fun u v h => Graph.reaches_iff.1 (hto _ h))
    (fun u v h => Graph.reaches_iff.1 (hfrom _ h))

/-- Neither the other edges nor the reduction, which drops one edge, change the schedule. -/
theorem schedule_of_reachability_twoLoops : (Graph.run twoLoops).Built ∧ (Graph.run rewiredLoops).Built ∧
    schedule (Graph.run rewiredLoops) = schedule (Graph.run twoLoops) ∧
    (Graph.run twoLoops).Acyclic ∧ (Graph.run twoLoops).reduce.1 = 1 ∧
    schedule (Graph.run twoLoops).reduce.2 = schedule (Graph.run twoLoops) := by
  have hb : (Graph.run twoLoops).Built := ⟨_, rfl⟩
  have hb' : (Graph.run rewiredLoops).Built := ⟨_, rfl⟩
  have ha : (Graph.run twoLoops).Acyclic := hb.wellFormed.hasCycle_eq_false_iff.1 (by cbv)
  obtain ⟨hsame, hreduce⟩ := schedule_of_reachability hb
  refine ⟨hb, hb', hsame _ hb' samePaths_rewiredLoops.nodes_eq (fun u v => ?_), ha, by cbv, hreduce ha⟩
  rw [Bool.eq_iff_iff, Graph.reaches_iff, Graph.reaches_iff, samePaths_rewiredLoops.path_iff]

end Flow
end LoopNest
