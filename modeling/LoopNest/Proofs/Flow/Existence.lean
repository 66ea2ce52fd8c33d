import Mathlib
import LoopNest.Flow.Plan
import LoopNest.Proofs.Flow.Building
import LoopNest.Proofs.Flow.Refinement
import LoopNest.Proofs.Graph.Contraction
/-!
# Proofs.Flow.Existence — when a validated program has a plan

The graph of a validated program is always built, its loops are on one path, and no node depends on itself.  So the
only thing that can go wrong is a cycle: the program has a plan exactly if no two statements depend on each other
(`plan_exists_iff`).  The checks do not rule that out: the fiber of a rank can have the name of the reference at the
end of a walk (`plan_fill_ref`).
-/
namespace LoopNest

open LoopNest.Graph (reaches_iff)

namespace Program

theorem wellFormed_of_graph {p : Program} {raw : Graph Node} (h : p.graph = .ok raw) : raw.WellFormed := by
  unfold Program.graph at h
  cases he : Wiring.edges p with
  | error e => rw [he] at h; cases h
  | ok es =>
    rw [he] at h
    cases h
    exact Graph.WellFormed.addEdges es Graph.wellFormed_empty

theorem edge_graph {es : List Dependency} {a b : Node} : (Graph.empty.addEdges es).Edge a b ↔ (a, b) ∈ es := by
  rw [Graph.edge_addEdges]
  exact or_iff_right List.not_mem_nil

variable {p : Program} {raw : Graph Node}

/-- **The graph of a consistent program**: it is built, no node depends on itself, and the loops are those of the
program, each before the next. -/
theorem Consistent.graph_total (hp : p.Consistent) : ∃ raw, p.graph = .ok raw ∧ (∀ u, ¬ raw.Edge u u) ∧
    (∀ r, Node.loop r ∈ raw.nodes ↔ r ∈ p.loops) ∧ (p.loops.map Node.loop).Pairwise raw.Path := by
  obtain ⟨es, hes, hw, hsk⟩ := Wiring.edges_total hp
  refine ⟨Graph.empty.addEdges es, by rw [Program.graph, hes]; rfl, fun u hu => ?_, fun r => ⟨fun hr => ?_, fun hr => ?_⟩, ?_⟩
  · exact (hw _ (edge_graph.1 hu)).1 rfl
  · rcases (Graph.mem_nodes_addEdges es Graph.empty).1 hr with h | ⟨e, he, h⟩
    · cases h
    · exact (hw e he).2 r (h.imp Eq.symm Eq.symm)
  · have hmem : Node.loop r ∈ Wiring.graphics :: Wiring.startLoop :: p.loops.map Node.loop ++
        [Wiring.body, Wiring.footer] :=
      List.mem_append_left _ (List.mem_cons_of_mem _ (List.mem_cons_of_mem _ (List.mem_map_of_mem hr)))
    obtain ⟨e, he, heq⟩ := Wiring.exists_mem_chain (n := Wiring.output) hmem
    exact (Graph.mem_nodes_addEdges es Graph.empty).2 (.inr ⟨e, hsk e he, .inr heq.symm⟩)
  · have hchain := Wiring.pairwise_path_of_chain (g := Graph.empty.addEdges es) fun e he => edge_graph.2 (hsk e he)
    refine hchain.sublist ?_
    refine List.Sublist.cons _ (List.Sublist.cons _ (List.Sublist.cons _ ?_))
    exact List.sublist_append_left _ _

theorem Consistent.plan_of_acyclic (hp : p.Consistent) (hraw : p.graph = .ok raw)
    (hacyc : (Flow.prune raw).2.Acyclic) : ∃ plan, p.plan = .ok plan := by
  obtain ⟨raw', hraw', -, hloops, hpath⟩ := hp.graph_total
  rw [hraw] at hraw'
  cases hraw'
  have hw := wellFormed_of_graph hraw
  have hpw : (Flow.prune raw).2.WellFormed := hw.contract _
  have : Std.Symm (fun a b => raw.Path a b ∨ raw.Path b a) := ⟨fun _ _ => Or.symm⟩
  have hcomp : (p.loops.map Node.loop).Pairwise (fun a b => raw.Path a b ∨ raw.Path b a) := hpath.imp Or.inl
  have hnested : Flow.Nested (Flow.prune raw).2 := by
    refine Flow.nested_of_comparable hpw hacyc fun a ha hal b hb hbl hab => ?_
    rw [Flow.prune, hw.nodes_contract, List.mem_filter] at ha hb
    have hmem : ∀ c ∈ raw.nodes, c.isLoop = true → c ∈ p.loops.map Node.loop := by
      intro c hc hcl
      cases c <;> cases hcl
      exact List.mem_map_of_mem ((hloops _).1 hc)
    have hkeep := fun c (hc : (!Node.isBookkeeping c) = true) => Bool.not_eq_true' _ ▸ hc
    refine (hcomp.forall (hmem a ha.1 hal) (hmem b hb.1 hbl) hab).imp (fun h => ?_) (fun h => ?_)
    · exact (hw.path_contract _ (hkeep a ha.2) (hkeep b hb.2) hab).2 h
    · exact (hw.path_contract _ (hkeep b hb.2) (hkeep a ha.2) (Ne.symm hab)).2 h
  obtain ⟨o, ho, -⟩ := Flow.schedule_of_nested hpw hnested
  exact ⟨⟨(Flow.prune raw).2, o, (Flow.prune raw).1⟩, by simp only [Program.plan, hraw, ho]⟩

theorem plan_of_cyclic (hraw : p.graph = .ok raw) (hcyc : ¬ (Flow.prune raw).2.Acyclic) :
    p.plan = .error (.schedule .cyclic) := by
  have hpw : (Flow.prune raw).2.WellFormed := (wellFormed_of_graph hraw).contract _
  rw [← hpw.hasCycle_eq_false_iff, Bool.not_eq_false] at hcyc
  have hs : Flow.schedule (Flow.prune raw).2 = .error .cyclic := by rw [Flow.schedule, if_pos hcyc]
  simp only [Program.plan, hraw, hs]

/-- Pruning leaves a cycle exactly for two statements that depend on each other. -/
theorem Consistent.acyclic_prune_iff (hp : p.Consistent) (hraw : p.graph = .ok raw) : (Flow.prune raw).2.Acyclic ↔
    ∀ a b, a.isBookkeeping = false → b.isBookkeeping = false → a ≠ b → raw.reaches a b = true →
      raw.reaches b a = false := by
  obtain ⟨raw', hraw', hirr, -⟩ := hp.graph_total
  rw [hraw] at hraw'
  cases hraw'
  simp only [Flow.prune, (wellFormed_of_graph hraw).acyclic_contract_iff _ hirr, reaches_iff, ← Bool.not_eq_true]

end Program

/-- **When a validated program has a plan.**  Its graph is built, and it has a plan exactly if no two statements
depend on each other.  If it has none, the complaint is a cycle. -/
theorem plan_exists_iff {p : Program} (hp : p.Validated) : ∃ raw, p.graph = .ok raw ∧
    ((∃ plan, p.plan = .ok plan) ↔ ∀ a b, a.isBookkeeping = false → b.isBookkeeping = false → a ≠ b →
      raw.reaches a b = true → raw.reaches b a = false) ∧
    ∀ e, p.plan = .error e → e = .schedule .cyclic := by
  have hc := hp.consistent
  obtain ⟨raw, hraw, -⟩ := hc.graph_total
  refine ⟨raw, hraw, ?_, fun e he => ?_⟩
  · rw [← hc.acyclic_prune_iff hraw]
    refine ⟨fun ⟨plan, hplan⟩ => ?_, hc.plan_of_acyclic hraw⟩
    by_contra hcyc
    rw [Program.plan_of_cyclic hraw hcyc] at hplan
    cases hplan
  · by_cases hacyc : (Flow.prune raw).2.Acyclic
    · obtain ⟨plan, hplan⟩ := hc.plan_of_acyclic hraw hacyc
      rw [hplan] at he
      cases he
    · rw [Program.plan_of_cyclic hraw hacyc] at he
      cases he
      rfl

namespace Wiring

/-- A program that writes a tensor with two ranks, the outer one named `outer`. -/
def fill (outer : String) : Program := ⟨[⟨"A", some [outer, "K"]⟩], "A", [outer, "K"], RuleSet.empty⟩

/-- The dependencies of such a program, where `start` is the fiber of the outer rank. -/
def fillEdges (outer start : String) : List Dependency :=
  let taken := Node.ofSwizzle "A" [outer, "K"]
  [(output, graphics), (graphics, startLoop), (startLoop, .loop outer), (.loop outer, .loop "K"), (.loop "K", body),
   (body, footer), (output, .tensor "A"), (.tensor "A", .rank "A" outer), (.tensor "A", .rank "A" "K"),
   (.tensor "A", taken), (taken, .fiber start), (.rank "A" outer, taken), (.rank "A" "K", taken),
   (.fiber start, .loop outer), (.loop outer, .fiber "a_k"), (.fiber "a_k", .loop "K"), (.loop "K", .fiber "a_ref"),
   (.fiber "a_ref", body)]

theorem validated_fill (outer : String) (h : (fill outer).problem? = none) : (fill outer).Validated :=
  .of_problem? h rfl

theorem graph_fill (outer start : String) (h : edges (fill outer) = .ok (fillEdges outer start)) :
    (fill outer).graph = .ok (Graph.empty.addEdges (fillEdges outer start)) := by
  rw [Program.graph, h]
  rfl

theorem graph_fill_w : (fill "W").graph = .ok (Graph.empty.addEdges (fillEdges "W" "a_w")) :=
  graph_fill _ _ (by cbv)

theorem acyclic_fill_w : (Flow.prune (Graph.empty.addEdges (fillEdges "W" "a_w"))).2.Acyclic := by
  have hw := Program.wellFormed_of_graph graph_fill_w
  have ho : (Flow.prune (Graph.empty.addEdges (fillEdges "W" "a_w"))).2.isTopologicalOrder
      [output, graphics, .ofSwizzle "A" ["W", "K"], .loop "W", .loop "K", body, footer] = true := by decide +kernel
  exact ((hw.contract _).isTopologicalOrder_iff.1 ho).acyclic (hw.contract _)

end Wiring

/-- With its outer rank named `W` the program has a plan. -/
theorem plan_exists_fill_w : (Wiring.fill "W").Validated ∧ ∃ plan, (Wiring.fill "W").plan = .ok plan := by
  have hv := Wiring.validated_fill "W" (by decide +kernel)
  obtain ⟨raw, hraw, hiff, -⟩ := plan_exists_iff hv
  have hacyc : (Flow.prune raw).2.Acyclic := by
    rw [Except.ok.inj (hraw.symm.trans Wiring.graph_fill_w)]
    exact Wiring.acyclic_fill_w
  exact ⟨hv, hiff.2 ((hv.consistent.acyclic_prune_iff hraw).1 hacyc)⟩

/-- **With its outer rank named `REF` it is still valid, but has no plan**: the fiber at which the loops begin has the
name of the reference at which they end, so each loop waits for the other. -/
theorem plan_fill_ref :
    (Wiring.fill "REF").Validated ∧ (Wiring.fill "REF").plan = .error (.schedule .cyclic) := by
  have hv := Wiring.validated_fill "REF" (by decide +kernel)
  have hraw := Wiring.graph_fill "REF" "a_ref" (by cbv)
  refine ⟨hv, Program.plan_of_cyclic hraw fun hacyc => ?_⟩
  have hedge : ∀ {a b}, (a, b) ∈ Wiring.fillEdges "REF" "a_ref" →
      (Graph.empty.addEdges (Wiring.fillEdges "REF" "a_ref")).Path a b := fun h => (Program.edge_graph.2 h).path
  have hdown : (Graph.empty.addEdges (Wiring.fillEdges "REF" "a_ref")).Path (.loop "REF") (.loop "K") :=
    hedge (by simp [Wiring.fillEdges])
  have hup : (Graph.empty.addEdges (Wiring.fillEdges "REF" "a_ref")).Path (.loop "K") (.loop "REF") :=
    (hedge (b := .fiber "a_ref") (by simp [Wiring.fillEdges])).trans (hedge (by simp [Wiring.fillEdges]))
  have hnot := (hv.consistent.acyclic_prune_iff hraw).1 hacyc _ _ rfl rfl (by decide) (reaches_iff.2 hdown)
  rw [reaches_iff.2 hup] at hnot
  cases hnot

end LoopNest
