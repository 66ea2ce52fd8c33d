import LoopNest.Proofs.Flow.Existence
/-!
# Proofs.Flow.Soundness — a plan keeps the dependencies of the program

The order of a plan is a scheduled order of the pruned graph, and pruning keeps what reaches what among the nodes that
stay.  So the plan says about the graph as built: it lists the statements, each after all that reach it, and after a
loop come exactly the statements that the loop reaches (`plan_sound`).
-/
namespace LoopNest

open LoopNest.Graph (reaches_iff)

namespace Flow

theorem scheduled_of_schedule {g : Graph Node} (hg : g.WellFormed) {o : List Node} (h : schedule g = .ok o) :
    Scheduled g o := by
  by_cases hn : Nested g
  · obtain ⟨o', hok, hs, -⟩ := schedule_of_nested hg hn
    rw [hok] at h
    cases h
    exact hs
  · rcases schedule_of_not_nested hg hn with h' | ⟨a, b, h'⟩ <;> rw [h'] at h <;> cases h

theorem isBookkeeping_of_isLoop {n : Node} (h : n.isLoop = true) : n.isBookkeeping = false := by
  cases n <;> simp_all [Node.isLoop, Node.isBookkeeping]

end Flow

theorem Program.plan_eq_ok_iff {p : Program} {plan : Plan} : p.plan = .ok plan ↔ ∃ raw, p.graph = .ok raw ∧
    plan.graph = (Flow.prune raw).2 ∧ plan.removed = (Flow.prune raw).1 ∧
    Flow.schedule (Flow.prune raw).2 = .ok plan.order := by
  unfold Program.plan
  cases hg : p.graph with
  | error e => simp
  | ok raw =>
    dsimp only
    cases hs : Flow.schedule (Flow.prune raw).2 with
    | error e => simp [hs]
    | ok order =>
      cases plan
      simp only [Except.ok.injEq, Plan.mk.injEq, exists_eq_left', hs]
      constructor
      · rintro ⟨rfl, rfl, rfl⟩; exact ⟨rfl, rfl, rfl⟩
      · rintro ⟨rfl, rfl, rfl⟩; exact ⟨rfl, rfl, rfl⟩

namespace Program

variable {p : Program} {plan : Plan} {raw : Graph Node}

theorem scheduled_of_plan (h : p.plan = .ok plan) (hraw : p.graph = .ok raw) :
    Flow.Scheduled (Flow.prune raw).2 plan.order := by
  obtain ⟨raw', hraw', -, -, hs⟩ := plan_eq_ok_iff.1 h
  rw [hraw] at hraw'
  cases hraw'
  exact Flow.scheduled_of_schedule ((wellFormed_of_graph hraw).contract _) hs

theorem topological_of_plan (h : p.plan = .ok plan) (hraw : p.graph = .ok raw) :
    (Flow.prune raw).2.Topological plan.order :=
  (scheduled_of_plan h hraw).topological

theorem mem_order_iff (h : p.plan = .ok plan) (hraw : p.graph = .ok raw) {n : Node} :
    n ∈ plan.order ↔ n ∈ raw.nodes ∧ n.isBookkeeping = false := by
  rw [(topological_of_plan h hraw).perm.mem_iff, Flow.prune, (wellFormed_of_graph hraw).nodes_contract, List.mem_filter,
    Bool.not_eq_true']

/-- **A plan lists a statement before every other one that it reaches.** -/
theorem before_of_path (h : p.plan = .ok plan) (hraw : p.graph = .ok raw) {a b : Node} (ha : a.isBookkeeping = false)
    (hb : b.isBookkeeping = false) (hab : a ≠ b) (hpath : raw.Path a b) : [a, b].Sublist plan.order := by
  have hw := wellFormed_of_graph hraw
  exact (topological_of_plan h hraw).path_sublist (hw.contract _) ((hw.path_contract _ ha hb hab).2 hpath)

/-- **The loops of a plan are those of the program**, in the same order. -/
theorem Consistent.loops_of_plan (hp : p.Consistent) (h : p.plan = .ok plan) :
    plan.order.filter Node.isLoop = p.loops.map Node.loop := by
  obtain ⟨raw, hraw, -, hloops, hpath⟩ := hp.graph_total
  have hw := wellFormed_of_graph hraw
  have htop := topological_of_plan h hraw
  have hnd := htop.nodup (hw.contract _)
  have hnd' : (p.loops.map Node.loop).Nodup := hp.nodup_loops.map fun _ _ h => Node.loop.inj h
  have hsorted : (p.loops.map Node.loop).Pairwise fun a b => plan.order.idxOf a < plan.order.idxOf b := by
    refine (hpath.and hnd').imp_of_mem ?_
    rintro a b ha hb ⟨hab, hne⟩
    obtain ⟨r, -, rfl⟩ := List.mem_map.1 ha
    obtain ⟨r', -, rfl⟩ := List.mem_map.1 hb
    exact htop.path_lt (hw.contract _) ((hw.path_contract _ rfl rfl hne).2 hab)
  refine List.Perm.eq_of_pairwise ?_ ((Agenda.pairwise_idxOf hnd).sublist List.filter_sublist) hsorted ?_
  · intro a b _ _ hab hba
    omega
  · rw [List.perm_ext_iff_of_nodup (hnd.filter _) hnd']
    intro n
    rw [List.mem_filter, mem_order_iff h hraw, List.mem_map]
    constructor
    · rintro ⟨⟨hn, -⟩, hloop⟩
      cases n <;> cases hloop
      exact ⟨_, (hloops _).1 hn, rfl⟩
    · rintro ⟨r, hr, rfl⟩
      exact ⟨⟨(hloops r).2 hr, rfl⟩, rfl⟩

end Program

/-- **A plan is sound for the graph as built.**  It lists the statements of that graph, each once.  A statement that
reaches another comes before it, and after a loop come exactly the other statements that the loop reaches. -/
theorem plan_sound {p : Program} {plan : Plan} (h : p.plan = .ok plan) : ∃ raw, p.graph = .ok raw ∧
    plan.order.Nodup ∧ (∀ n, n ∈ plan.order ↔ n ∈ raw.nodes ∧ n.isBookkeeping = false) ∧
    (∀ a b, a.isBookkeeping = false → b.isBookkeeping = false → a ≠ b → raw.reaches a b = true →
      plan.order.idxOf a < plan.order.idxOf b) ∧
    ∀ l ∈ plan.order, l.isLoop = true → ∀ n, (n ∈ plan.order ∧ plan.order.idxOf l < plan.order.idxOf n) ↔
      (n.isBookkeeping = false ∧ n ≠ l ∧ raw.reaches l n = true) := by
  obtain ⟨raw, hraw, -, -, hs⟩ := Program.plan_eq_ok_iff.1 h
  have hw := Program.wellFormed_of_graph hraw
  have hpw : (Flow.prune raw).2.WellFormed := hw.contract _
  have hsch := Flow.scheduled_of_schedule hpw hs
  have hmem : ∀ n, n ∈ plan.order ↔ n ∈ raw.nodes ∧ n.isBookkeeping = false := by
    intro n
    rw [hsch.topological.perm.mem_iff, Flow.prune, hw.nodes_contract, List.mem_filter, Bool.not_eq_true']
  have hpath : ∀ {a b : Node}, a.isBookkeeping = false → b.isBookkeeping = false → a ≠ b →
      ((Flow.prune raw).2.Path a b ↔ raw.Path a b) := fun ha hb hab => hw.path_contract _ ha hb hab
  refine ⟨raw, hraw, hsch.topological.nodup hpw, hmem, fun a b ha hb hab hr => ?_, fun l hl hloop n => ?_⟩
  · exact hsch.topological.path_lt hpw ((hpath ha hb hab).2 (reaches_iff.1 hr))
  · have hlb := Flow.isBookkeeping_of_isLoop hloop
    constructor
    · rintro ⟨hn, hlt⟩
      have hnl : n ≠ l := fun heq => by rw [heq] at hlt; exact Nat.lt_irrefl _ hlt
      have hnb := ((hmem n).1 hn).2
      have hp := (hsch.after_iff hpw hl hloop hn).1 hlt
      exact ⟨hnb, hnl, reaches_iff.2 ((hpath hlb hnb (Ne.symm hnl)).1 hp)⟩
    · rintro ⟨hnb, hnl, hr⟩
      have hp := reaches_iff.1 hr
      exact ⟨(hmem n).2 ⟨hw.path_end hp, hnb⟩, hsch.topological.path_lt hpw ((hpath hlb hnb (Ne.symm hnl)).2 hp)⟩

/-- The plan of a program with two nested loops: the inner loop comes after the outer one, and so does exactly what the
outer one reaches. -/
theorem plan_sound_fill_w : ∃ plan raw, (Wiring.fill "W").plan = .ok plan ∧ (Wiring.fill "W").graph = .ok raw ∧
    plan.order.idxOf (.loop "W") < plan.order.idxOf (.loop "K") ∧
    ∀ n, (n ∈ plan.order ∧ plan.order.idxOf (.loop "W") < plan.order.idxOf n) ↔
      (n.isBookkeeping = false ∧ n ≠ .loop "W" ∧ raw.reaches (.loop "W") n = true) := by
  have hv := Wiring.validated_fill "W" (by decide +kernel)
  obtain ⟨plan, hplan⟩ := hv.consistent.plan_of_acyclic Wiring.graph_fill_w Wiring.acyclic_fill_w
  obtain ⟨raw, hraw, -, hmem, hbefore, hafter⟩ := plan_sound hplan
  have hedge : raw.Edge (.loop "W") (.loop "K") := by
    rw [Except.ok.inj (hraw.symm.trans Wiring.graph_fill_w), Program.edge_graph]
    simp [Wiring.fillEdges]
  have hstart := (hmem (.loop "W")).2 ⟨(Program.wellFormed_of_graph hraw).start_mem hedge, rfl⟩
  exact ⟨plan, raw, hplan, hraw, hbefore _ _ rfl rfl (by decide) (reaches_iff.2 hedge.path), hafter _ hstart rfl⟩

end LoopNest
