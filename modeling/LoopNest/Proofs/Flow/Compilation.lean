import LoopNest.Proofs.Flow.Soundness
import LoopNest.Proofs.Graph.Cloning
/-!
# Proofs.Flow.Compilation — a run of the compiler gives the plan, whatever its options

The options say what is kept and checked beside the plan.  The check never complains: a schedule passes its own test
(`scheduled_of_schedule`), and exhaustive search finds the same order (`exhaustive_of_schedule`).  It compares the two
index by index, which tells them apart since they are equally long (`verifySchedule_eq_true_iff`).  The graph as built
is cloned before pruning, and the clone lists the same nodes and edges.
-/
namespace LoopNest

namespace Flow

theorem exhaustive_of_schedule {g : Graph Node} (hg : g.WellFormed) {o : List Node} (h : schedule g = .ok o) :
    scheduleExhaustive g = .ok o := by
  have hn := (scheduled_of_schedule hg h).nested hg
  obtain ⟨o', ho', hs, hleast⟩ := schedule_of_nested hg hn
  rw [h, Except.ok.injEq] at ho'
  subst ho'
  exact scheduleExhaustive_of_least hg hs hleast

end Flow

/-- Lists of one length differ at some index, or are the same. -/
theorem firstDifference?_eq_none_iff {α : Type} [DecidableEq α] : ∀ (i : Nat) {as bs : List α},
    as.length = bs.length → (firstDifference? i as bs = none ↔ as = bs)
  | _, [], [], _ => by simp [firstDifference?]
  | _, [], _ :: _, h => by cases h
  | _, _ :: _, [], h => by cases h
  | i, a :: as, b :: bs, h => by
    rw [firstDifference?, List.cons.injEq]
    by_cases hab : a = b
    · rw [if_pos hab, firstDifference?_eq_none_iff (i + 1) (Nat.succ.inj h)]
      exact ⟨fun hrest => ⟨hab, hrest⟩, fun hrest => hrest.2⟩
    · rw [if_neg hab]
      exact ⟨fun hnone => (by cases hnone), fun hrest => absurd hrest.1 hab⟩

/-- **The check finds that a schedule is the one of exhaustive search** exactly if it was compared with it and is. -/
theorem verifySchedule_eq_true_iff {g : Graph Node} (hg : g.WellFormed) (order : List Node) (limit : Int) :
    verifySchedule g order limit = .ok true ↔ Flow.scheduleProblem? g order = none ∧
      (g.nodeCount : Int) ≤ limit ∧ Flow.scheduleExhaustive g = .ok order := by
  unfold verifySchedule
  cases hproblem : Flow.scheduleProblem? g order with
  | some e => simp
  | none =>
    by_cases hlimit : limit < (g.nodeCount : Int)
    · simp [hlimit, not_le.2 hlimit]
    · cases hwant : Flow.scheduleExhaustive g with
      | error e => simp [hlimit]
      | ok want =>
        -- both orders are topological, so neither is a proper beginning of the other
        have hlength : order.length = want.length :=
          ((Flow.scheduleProblem?_eq_none_iff hg).1 hproblem).topological.perm.length_eq.trans
            (Flow.scheduled_of_exhaustive hg hwant).topological.perm.length_eq.symm
        have hsame := firstDifference?_eq_none_iff 0 hlength
        simp only [hlimit, if_false, not_lt.1 hlimit, true_and, Except.ok.injEq]
        cases hdiff : firstDifference? 0 order want with
        | none => simp [hsame.1 hdiff]
        | some d =>
          have hne : want ≠ order := fun h => by rw [hsame.2 h.symm] at hdiff; cases hdiff
          simp [hne]

/-- **The check of a schedule never complains**, and says whether the graph was small enough to search. -/
theorem verifySchedule_eq {g : Graph Node} (hg : g.WellFormed) {o : List Node} (h : Flow.schedule g = .ok o)
    (limit : Int) : verifySchedule g o limit = .ok (decide ((g.nodeCount : Int) ≤ limit)) := by
  have hproblem := (Flow.scheduleProblem?_eq_none_iff hg).2 (Flow.scheduled_of_schedule hg h)
  by_cases hlimit : limit < (g.nodeCount : Int)
  · rw [verifySchedule, hproblem]
    simp [hlimit, not_le.2 hlimit]
  · rw [decide_eq_true (not_lt.1 hlimit)]
    exact (verifySchedule_eq_true_iff hg o limit).2 ⟨hproblem, not_lt.1 hlimit, Flow.exhaustive_of_schedule hg h⟩

theorem Graph.WellFormed.nodeCount_contract {α : Type} [DecidableEq α] {g : Graph α} (hg : g.WellFormed)
    (drop : α → Bool) : (g.contract drop).2.nodeCount + (g.contract drop).1 = g.nodeCount := by
  rw [Graph.nodeCount, Graph.nodeCount, hg.nodes_contract, Graph.contract, Nat.add_comm]
  exact (List.length_eq_length_filter_add drop).symm

/-- What a run that is not interrupted gives, once the graph is built and scheduled. -/
def Outcome.of (o : Options) (raw : Graph Node) (order : List Node) : Outcome where
  raw := if o.keepRaw then some raw.clone else none
  rawNodes := raw.nodeCount
  rawEdges := raw.edgeCount
  graph := (Flow.prune raw).2
  order := order
  removed := (Flow.prune raw).1
  verified := o.verify && decide (((Flow.prune raw).2.nodeCount : Int) ≤ o.limit)

namespace Program

variable {p : Program} {o : Options}

theorem compile_of_error (ho : o.interrupt = .never) {e : CompileError} (h : p.plan = .error e) :
    (p.compile o).2 = .error e := by
  unfold plan at h
  unfold compile
  rw [ho, if_neg (by decide)]
  cases hg : p.graph with
  | error f => rw [hg] at h; cases h; rfl
  | ok raw =>
    rw [hg] at h
    dsimp only at h ⊢
    rw [if_neg (by decide)]
    cases hs : Flow.schedule (Flow.prune raw).2 with
    | error f => rw [hs] at h; cases h; rfl
    | ok order => rw [hs] at h; cases h

theorem compile_of_ok (ho : o.interrupt = .never) {plan : Plan} (h : p.plan = .ok plan) {raw : Graph Node}
    (hraw : p.graph = .ok raw) : (p.compile o).2 = .ok (Outcome.of o raw plan.order) := by
  obtain ⟨raw', hraw', -, -, hs⟩ := plan_eq_ok_iff.1 h
  rw [hraw, Except.ok.injEq] at hraw'
  subst hraw'
  have hpw : (Flow.prune raw).2.WellFormed := (wellFormed_of_graph hraw).contract _
  unfold compile
  rw [ho, if_neg (by decide), hraw]
  dsimp only
  rw [if_neg (by decide), hs]
  dsimp only
  rw [verifySchedule_eq hpw hs]
  cases hverify : o.verify with
  | true => simp [Outcome.of, hverify]
  | false => simp [Outcome.of, hverify]

end Program

/-- **Every run that is not interrupted agrees with the plan.**  It fails exactly when there is no plan, with the same
error.  Otherwise graph, order and the count of pruned nodes are those of the plan, pruned and remaining nodes are those
that were built, and what is kept of the graph as built has its nodes and its edges.  The check of the schedule never
fails; exhaustive search is made exactly in graphs within the limit, sixteen nodes if none is given, and finds the same
order.  It would fail for any other order: of that graph it confirms only the one that exhaustive search finds. -/
theorem compile_agrees_with_plan {p : Program} {o : Options} (ho : o.interrupt = .never) :
    (∀ e, (p.compile o).2 = .error e ↔ p.plan = .error e) ∧
    ∀ plan, p.plan = .ok plan → ∃ raw r, p.graph = .ok raw ∧ (p.compile o).2 = .ok r ∧
      r.graph = plan.graph ∧ r.order = plan.order ∧ r.removed = plan.removed ∧
      r.rawNodes = r.graph.nodeCount + r.removed ∧
      (o.keepRaw = false → r.raw = none) ∧
      (o.keepRaw = true → ∃ copy, r.raw = some copy ∧ copy.nodes = raw.nodes ∧ copy.edgesByNode = raw.edgesByNode) ∧
      (o.verify = true → verifySchedule r.graph r.order o.limit = .ok r.verified ∧
        (r.verified = true ↔ (r.graph.nodeCount : Int) ≤ if o.verifyLimit ≤ 0 then 16 else o.verifyLimit)) ∧
      (o.verify = false → r.verified = false) ∧
      (r.verified = true → Flow.scheduleExhaustive r.graph = .ok r.order) ∧
      ∀ (order : List Node) (limit : Int), verifySchedule r.graph order limit = .ok true ↔
        Flow.scheduleProblem? r.graph order = none ∧ (r.graph.nodeCount : Int) ≤ limit ∧
          Flow.scheduleExhaustive r.graph = .ok order := by
  refine ⟨fun e => ⟨fun h => ?_, Program.compile_of_error ho⟩, fun plan h => ?_⟩
  · cases hplan : p.plan with
    | error f => rw [Program.compile_of_error ho hplan] at h; cases h; rfl
    | ok plan =>
      obtain ⟨raw, hraw, -⟩ := Program.plan_eq_ok_iff.1 hplan
      rw [Program.compile_of_ok ho hplan hraw] at h
      cases h
  · obtain ⟨raw, hraw, hgraph, hremoved, hs⟩ := Program.plan_eq_ok_iff.1 h
    have hw := Program.wellFormed_of_graph hraw
    have hpw : (Flow.prune raw).2.WellFormed := hw.contract _
    refine ⟨raw, Outcome.of o raw plan.order, hraw, Program.compile_of_ok ho h hraw, hgraph.symm, rfl, hremoved.symm,
      (hw.nodeCount_contract _).symm, fun hk => if_neg (by simp [hk]), fun hk => ⟨raw.clone, if_pos hk, ?_, ?_⟩,
      fun hv => ⟨?_, ?_⟩, fun hv => ?_, fun _ => Flow.exhaustive_of_schedule hpw hs, verifySchedule_eq_true_iff hpw⟩
    · rw [hw.clone_eq]
    · exact hw.edgesByNode_clone
    · exact (verifySchedule_eq hpw hs o.limit).trans (by simp [Outcome.of, hv])
    · rw [Outcome.of, hv, Bool.true_and, decide_eq_true_iff]
      rfl
    · simp [Outcome.of, hv]

/-- A program with two loops is compiled with its graph kept, its schedule checked and no limit given: exhaustive
search is made, since seven nodes remain. -/
theorem compile_agrees_fill_w :
    (⟨true, true, 0, .never⟩ : Options).interrupt = .never ∧ ∃ plan r copy, (Wiring.fill "W").plan = .ok plan ∧
      ((Wiring.fill "W").compile ⟨true, true, 0, .never⟩).2 = .ok r ∧ r.order = plan.order ∧ r.verified = true ∧
      r.raw = some copy ∧ copy.nodes = (Graph.empty.addEdges (Wiring.fillEdges "W" "a_w")).nodes := by
  have hv := Wiring.validated_fill "W" (by decide +kernel)
  obtain ⟨plan, hplan⟩ := hv.consistent.plan_of_acyclic Wiring.graph_fill_w Wiring.acyclic_fill_w
  obtain ⟨raw, r, hraw, hr, hgraph, horder, -, -, -, hkeep, hverify, -⟩ :=
    (compile_agrees_with_plan (o := ⟨true, true, 0, .never⟩) rfl).2 plan hplan
  obtain ⟨copy, hcopy, hnodes, -⟩ := hkeep rfl
  rw [Wiring.graph_fill_w, Except.ok.injEq] at hraw
  obtain ⟨raw', hraw', hpruned, -⟩ := Program.plan_eq_ok_iff.1 hplan
  rw [Wiring.graph_fill_w, Except.ok.injEq] at hraw'
  have hcount : (r.graph.nodeCount : Int) = 7 := by
    rw [hgraph, hpruned, ← hraw']
    decide +kernel
  exact ⟨rfl, plan, r, copy, hplan, hr, horder, (hverify rfl).2.2 (by rw [hcount]; decide), hcopy, hraw ▸ hnodes⟩

end LoopNest
