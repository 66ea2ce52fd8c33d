import LoopNest.Proofs.Program.Rearrangement
import LoopNest.Proofs.Flow.Ends
/-!
# Proofs.Flow.Rearrangement — plans do not depend on the order of declarations

Every routine of the wiring asks a program for its loops, its output and look-ups only, so programs that agree wire each
tensor in the same way (`Program.Agree.tensorEdges`).  Listing tensors or rules in another order then gives a graph with the
same nodes and edges (`Program.Alike.graph`); contraction keeps that, because its edges are paths through dropped nodes
(`Graph.Alike.contract`); and the place of a loop is counted from what it reaches (`Flow.Scheduled.place_eq`).
-/
namespace LoopNest

/-! ## Graphs with the same nodes and edges -/

namespace Graph

variable {α : Type} {g g' : Graph α}

/-- **The same nodes and edges**, in whatever order. -/
structure Alike (g g' : Graph α) : Prop where
  nodes : g.nodes.Perm g'.nodes
  edges : g.edges.Perm g'.edges

theorem Alike.edge_eq (h : g.Alike g') : g.Edge = g'.Edge :=
  funext fun _ => funext fun _ => propext h.edges.mem_iff

theorem Alike.path_eq (h : g.Alike g') : g.Path = g'.Path := by
  rw [Path, Path, h.edge_eq]

theorem Alike.acyclic_iff (h : g.Alike g') : g.Acyclic ↔ g'.Acyclic := by
  rw [Acyclic, Acyclic, h.path_eq]

theorem WellFormed.alike (hg : g.WellFormed) (hg' : g'.WellFormed) (hn : ∀ n, n ∈ g.nodes ↔ n ∈ g'.nodes)
    (he : ∀ u v, g.Edge u v ↔ g'.Edge u v) : g.Alike g' where
  nodes := (List.perm_ext_iff_of_nodup hg.nodup_nodes hg'.nodup_nodes).2 hn
  edges := (List.perm_ext_iff_of_nodup hg.nodup_edges hg'.nodup_edges).2 fun e => he e.1 e.2

theorem Alike.pathVia (h : g.Alike g') {via : α → Prop} {u v : α} (hp : g.PathVia via u v) : g'.PathVia via u v := by
  induction hp with
  | edge he => exact .edge (h.edge_eq ▸ he)
  | step he hx _ ih => exact .step (h.edge_eq ▸ he) hx ih

theorem Alike.symm (h : g.Alike g') : g'.Alike g := ⟨h.nodes.symm, h.edges.symm⟩

variable [DecidableEq α]

theorem Alike.edge_contract (h : g.Alike g') (hg : g.WellFormed) (hg' : g'.WellFormed) {drop : α → Bool} {u v : α}
    (he : (g.contract drop).2.Edge u v) : (g'.contract drop).2.Edge u v := by
  obtain ⟨hu, hv⟩ := hg.keeps_of_edge_contract drop he
  refine (hg'.edge_contract drop hu hv).2 ?_
  exact ((hg.edge_contract drop hu hv).1 he).imp (fun h' => ⟨h'.1, h.edge_eq ▸ h'.2⟩) fun h' => ⟨h'.1, h.pathVia h'.2⟩

/-- **Contraction does not see the order of nodes and edges**, although it takes the nodes one after the other. -/
theorem Alike.contract (h : g.Alike g') (hg : g.WellFormed) (hg' : g'.WellFormed) (drop : α → Bool) :
    (g.contract drop).2.Alike (g'.contract drop).2 := by
  refine (hg.contract drop).alike (hg'.contract drop) (fun n => ?_) fun u v => ?_
  · rw [hg.nodes_contract, hg'.nodes_contract, List.mem_filter, List.mem_filter, h.nodes.mem_iff]
  · exact ⟨h.edge_contract hg hg', h.symm.edge_contract hg' hg⟩

theorem Alike.descendants (h : g.Alike g') (n : α) : (g.descendants n).Perm (g'.descendants n) := by
  refine (List.perm_ext_iff_of_nodup (nodup_descendants g n) (nodup_descendants g' n)).2 fun x => ?_
  rw [mem_descendants, mem_descendants, h.path_eq]

end Graph

namespace Flow

variable {g g' : Graph Node} {o o' : List Node} {l x : Node}

theorem requiredIndex_eq_of_alike (h : g.Alike g') (l : Node) : requiredIndex g l = requiredIndex g' l := by
  rw [requiredIndex, requiredIndex, Graph.nodeCount, Graph.nodeCount, h.nodes.length_eq, (h.descendants l).length_eq]

/-- Before a loop in its place come exactly the other nodes that it does not reach. -/
theorem Scheduled.before_iff (hg : g.WellFormed) (hs : Scheduled g o) (hl : l ∈ o) (hloop : l.isLoop = true) :
    x ∈ o.take (o.idxOf l) ↔ x ∈ o ∧ x ≠ l ∧ ¬ g.Path l x := by
  constructor
  · intro hx
    have hmem := List.mem_of_mem_take hx
    have hlt := (List.mem_take_iff_idxOf_lt hmem).1 hx
    refine ⟨hmem, fun h => ?_, fun h => ?_⟩
    · rw [h] at hlt
      exact absurd hlt (lt_irrefl _)
    · exact absurd ((hs.after_iff hg hl hloop hmem).2 h) (by omega)
  · rintro ⟨hmem, hne, hpath⟩
    rw [List.mem_take_iff_idxOf_lt hmem]
    have hle := mt (hs.after_iff hg hl hloop hmem).1 hpath
    have hidx : o.idxOf x ≠ o.idxOf l := fun h => hne ((List.idxOf_inj hmem).1 h)
    omega

/-- **A loop has the same place in every order that is scheduled for these nodes and edges**, and the same nodes come
before it. -/
theorem Scheduled.place_eq (h : g.Alike g') (hg : g.WellFormed) (hg' : g'.WellFormed) (hs : Scheduled g o)
    (hs' : Scheduled g' o') (hl : l ∈ o) (hloop : l.isLoop = true) :
    o.idxOf l = o'.idxOf l ∧ (o.take (o.idxOf l)).Perm (o'.take (o'.idxOf l)) := by
  have hperm : o.Perm o' := hs.topological.perm.trans (h.nodes.trans hs'.topological.perm.symm)
  have hl' := hperm.mem_iff.1 hl
  constructor
  · have hidx := hs.placed l hl hloop
    rw [requiredIndex_eq_of_alike h, hs'.placed l hl' hloop] at hidx
    omega
  · refine (List.perm_ext_iff_of_nodup ((hs.topological.nodup hg).sublist (List.take_sublist _ _))
      ((hs'.topological.nodup hg').sublist (List.take_sublist _ _))).2 fun x => ?_
    rw [hs.before_iff hg hl hloop, hs'.before_iff hg' hl' hloop, hperm.mem_iff, h.path_eq]

end Flow

/-! ## Programs that agree -/

namespace Program

section

variable {p q : Program} (h : p.Agree q)

include h

theorem Agree.cursor (t : Tensor) : p.cursor t = q.cursor t := by
  rw [Program.cursor, Program.cursor, h.output]

theorem Agree.apply (c : Cursor) : p.loopOrder.apply c = q.loopOrder.apply c := by
  have hpos : p.loopOrder.position? = q.loopOrder.position? := by
    funext x
    rw [LoopOrder.position?, LoopOrder.position?, loopOrder, loopOrder, h.loops]
  have hkey : p.loopOrder.key? = q.loopOrder.key? := by
    funext x
    rw [LoopOrder.key?, LoopOrder.key?, hpos, loopOrder, loopOrder, h.finals]
  rw [LoopOrder.apply, LoopOrder.apply, hkey, loopOrder, loopOrder, h.loops]

theorem Agree.cursor_split (c : Cursor) (x : String) : c.split p.rules x = c.split q.rules x := by
  rw [Cursor.split, Cursor.split, h.split]

theorem Agree.isStatic (x : String) : p.rules.isStatic x = q.rules.isStatic x := by
  rw [RuleSet.isStatic, RuleSet.isStatic, h.split]

theorem Agree.isDynamic (x : String) : p.rules.isDynamic x = q.rules.isDynamic x := by
  rw [RuleSet.isDynamic, RuleSet.isDynamic, h.split]

theorem Agree.splitEach : ∀ (xs : List String) (c : Cursor), Wiring.splitEach p c xs = Wiring.splitEach q c xs
  | [], _ => rfl
  | x :: xs, c => by
    rw [Wiring.splitEach, Wiring.splitEach, h.cursor_split]
    cases c.split q.rules x with
    | error e => rfl
    | ok d => exact Agree.splitEach xs d

theorem Agree.sources (x : String) : Wiring.sources p x = Wiring.sources q x := by
  rw [Wiring.sources, Wiring.sources, RuleSet.intermediates, RuleSet.intermediates, h.rule]

theorem Agree.staticPart (root x : String) : Wiring.staticPart p root x = Wiring.staticPart q root x := by
  rw [Wiring.staticPart, Wiring.staticPart, RuleSet.finalsOf, RuleSet.finalsOf, h.split]

theorem Agree.dynamicSplit (root x : String) : Wiring.dynamicSplit p root x = Wiring.dynamicSplit q root x := by
  rw [Wiring.dynamicSplit, Wiring.dynamicSplit, h.split, h.tensor]

theorem Agree.dynamicPart (root : String) : ∀ xs, Wiring.dynamicPart p root xs = Wiring.dynamicPart q root xs
  | [] => rfl
  | x :: xs => by
    rw [Wiring.dynamicPart, Wiring.dynamicPart, h.dynamicSplit, Agree.dynamicPart root xs]

theorem Agree.rankPart (root : String) : ∀ xs c, Wiring.rankPart p root c xs = Wiring.rankPart q root c xs
  | [], _ => rfl
  | x :: xs, c => by
    rw [Wiring.rankPart, Wiring.rankPart, h.isStatic, h.isDynamic, h.staticPart, h.sources, h.dynamicPart, h.splitEach]
    simp only [Agree.rankPart root xs]

theorem Agree.meetSplit (c : Cursor) (x : String) : Wiring.meetSplit p c x = Wiring.meetSplit q c x := by
  rw [Wiring.meetSplit, Wiring.meetSplit, h.cursor_split]
  simp only [h.apply]

theorem Agree.walk : ∀ (fuel : Nat) (c : Cursor), Wiring.walk p fuel c = Wiring.walk q fuel c
  | 0, _ => rfl
  | fuel + 1, c => by
    rw [Wiring.walk, Wiring.walk]
    cases c.pop? with
    | none => rfl
    | some r =>
      simp only [h.meetSplit, Agree.walk fuel]
      rw [h.isDynamic]

theorem Agree.walkAll (c : Cursor) : Wiring.walkAll p c = Wiring.walkAll q c := by
  have hsteps : Wiring.walkSteps p = Wiring.walkSteps q := by
    funext x
    rw [Wiring.walkSteps, Wiring.walkSteps, Cursor.pendingSplits, Cursor.pendingSplits, h.split]
  rw [Wiring.walkAll, Wiring.walkAll, hsteps, h.walk]

/-- **Programs that agree wire a tensor in the same way.** -/
theorem Agree.tensorEdges (t : Tensor) : Wiring.tensorEdges p t = Wiring.tensorEdges q t := by
  rw [Wiring.tensorEdges, Wiring.tensorEdges, h.cursor, h.rankPart]
  simp only [h.apply, h.walkAll]

end

variable {p q : Program}

theorem Agree.depends_iff (h : p.Agree q) (hp : p.Named) (hq : q.Named) {t : Tensor} (ht : t ∈ p.tensors)
    (ht' : t ∈ q.tensors) {a b : Node} : Wiring.Depends p t a b ↔ Wiring.Depends q t a b := by
  obtain ⟨es, hes, -⟩ := Wiring.tensorEdges_total hp.toConsistent ht
  rw [← Wiring.mem_tensorEdges hp ht hes, ← Wiring.mem_tensorEdges hq ht' ((h.tensorEdges t).symm.trans hes)]

/-- **Declarations in another order give the same nodes and edges.** -/
theorem Alike.graph (h : p.Alike q) (ha : p.Agree q) (hp : p.Named) (hq : q.Named) {raw raw' : Graph Node}
    (hraw : p.graph = .ok raw) (hraw' : q.graph = .ok raw') : raw.Alike raw' := by
  have hskeleton : Wiring.skeleton p = Wiring.skeleton q := by
    rw [Wiring.skeleton, Wiring.skeleton, h.loops]
  have hdepends : ∀ a b, (∃ t ∈ p.tensors, Wiring.Depends p t a b) ↔ ∃ t ∈ q.tensors, Wiring.Depends q t a b := by
    intro a b
    constructor
    · rintro ⟨t, ht, hd⟩
      have ht' := h.tensors.mem_iff.1 ht
      exact ⟨t, ht', (ha.depends_iff hp hq ht ht').1 hd⟩
    · rintro ⟨t, ht', hd⟩
      have ht := h.tensors.mem_iff.2 ht'
      exact ⟨t, ht, (ha.depends_iff hp hq ht ht').2 hd⟩
  have hedge : ∀ a b, raw.Edge a b ↔ raw'.Edge a b := by
    intro a b
    rw [Wiring.edge_iff hp hraw, Wiring.edge_iff hq hraw', hskeleton, h.output, hdepends]
  refine (wellFormed_of_graph hraw).alike (wellFormed_of_graph hraw') (fun n => ?_) hedge
  simp only [mem_nodes_graph hraw, mem_nodes_graph hraw', hedge]

theorem Consistent.exists_plan_iff (hp : p.Consistent) {raw : Graph Node} (hraw : p.graph = .ok raw) :
    (∃ plan, p.plan = .ok plan) ↔ (Flow.prune raw).2.Acyclic := by
  refine ⟨fun ⟨plan, hplan⟩ => ?_, hp.plan_of_acyclic hraw⟩
  by_contra hcyc
  rw [plan_of_cyclic hraw hcyc] at hplan
  cases hplan

end Program

/-- **The order of declarations does not matter to the dependencies.**  Take a description that is accepted, and list
its tensors and its rules in any other order: it is accepted too, the graphs have the same nodes and edges, before and
after pruning, both have a plan or neither has, and in both plans each loop has the same index and the same nodes before
it. -/
theorem Description.plan_alike {d e : Description} {p : Program} (h : d.Alike e) (hd : d.program = .ok p) :
    ∃ q raw raw', e.program = .ok q ∧ p.graph = .ok raw ∧ q.graph = .ok raw' ∧
      raw.Alike raw' ∧ (Flow.prune raw).2.Alike (Flow.prune raw').2 ∧
      ((∃ plan, p.plan = .ok plan) ↔ ∃ plan, q.plan = .ok plan) ∧
      ∀ plan plan', p.plan = .ok plan → q.plan = .ok plan' → plan.order.Perm plan'.order ∧
        ∀ l ∈ plan.order, l.isLoop = true → plan.order.idxOf l = plan'.order.idxOf l ∧
          (plan.order.take (plan.order.idxOf l)).Perm (plan'.order.take (plan'.order.idxOf l)) := by
  obtain ⟨q, he, halike, hagree⟩ := h.program hd
  have hp := (validated_of_program hd).named
  have hq := (validated_of_program he).named
  obtain ⟨raw, hraw, -⟩ := hp.graph_total
  obtain ⟨raw', hraw', -⟩ := hq.graph_total
  have hw := Program.wellFormed_of_graph hraw
  have hw' := Program.wellFormed_of_graph hraw'
  have hgraph := halike.graph hagree hp hq hraw hraw'
  have hpruned := hgraph.contract hw hw' Node.isBookkeeping
  refine ⟨q, raw, raw', he, hraw, hraw', hgraph, hpruned, ?_, fun plan plan' hplan hplan' => ?_⟩
  · rw [hp.exists_plan_iff hraw, hq.exists_plan_iff hraw']
    exact hpruned.acyclic_iff
  · have hs := Program.scheduled_of_plan hplan hraw
    have hs' := Program.scheduled_of_plan hplan' hraw'
    refine ⟨hs.topological.perm.trans (hpruned.nodes.trans hs'.topological.perm.symm), fun l hl hloop => ?_⟩
    exact hs.place_eq hpruned (hw.contract _) (hw'.contract _) hs' hl hloop

namespace Wiring

theorem wellOrdered_tiled : tiled.WellOrdered :=
  Program.wellOrdered_of_closed (l := ["K", "K2", "K1I", "K1", "K0", "M", "M1", "M0"]) (by decide) (by decide +kernel)
    (by decide +kernel) (by decide +kernel)

/-- The tiled program as a description. -/
def tiledForward : Description :=
  ⟨"B", some ["K2", "M1", "K1", "M0", "K0"], some [⟨"A", some ["K", "M"]⟩, ⟨"B", some ["K"]⟩],
    some [⟨"K", some [⟨.uniformOccupancy, 6, "A"⟩, ⟨.uniformOccupancy, 3, "A"⟩]⟩,
      ⟨"M", some [⟨.uniformShape, 4, ""⟩]⟩]⟩

/-- The same with the follower declared before its leader, and the static rule before the dynamic one. -/
def tiledBackward : Description :=
  ⟨"B", some ["K2", "M1", "K1", "M0", "K0"], some [⟨"B", some ["K"]⟩, ⟨"A", some ["K", "M"]⟩],
    some [⟨"M", some [⟨.uniformShape, 4, ""⟩]⟩,
      ⟨"K", some [⟨.uniformOccupancy, 6, "A"⟩, ⟨.uniformOccupancy, 3, "A"⟩]⟩]⟩

theorem alike_tiled : tiledForward.Alike tiledBackward :=
  ⟨rfl, rfl, List.Perm.swap _ _ _, List.Perm.swap _ _ _⟩

theorem program_tiledForward : tiledForward.program = .ok tiled :=
  Description.program_eq_ok_iff.2 ⟨tiled.rules, by decide +kernel, rfl, by decide +kernel⟩

/-- Both descriptions of the tiled program have plans, and the loop that its two tensors do not share has the same place
in them. -/
theorem plan_alike_tiled : tiledForward.Alike tiledBackward ∧ tiledForward.program = .ok tiled ∧
    ∃ q plan plan', tiledBackward.program = .ok q ∧ tiled.plan = .ok plan ∧ q.plan = .ok plan' ∧
      plan.order.idxOf (.loop "M1") = plan'.order.idxOf (.loop "M1") := by
  obtain ⟨q, raw, raw', hq, hraw, -, -, -, hiff, hplans⟩ := Description.plan_alike alike_tiled program_tiledForward
  obtain ⟨plan, hplan⟩ := wellOrdered_tiled.exists_plan validated_tiled
  obtain ⟨plan', hplan'⟩ := hiff.1 ⟨plan, hplan⟩
  have hmem : Node.loop "M1" ∈ plan.order := by
    refine List.mem_of_mem_filter (p := Node.isLoop) ?_
    rw [validated_tiled.consistent.loops_of_plan hplan]
    decide
  exact ⟨alike_tiled, program_tiledForward, q, plan, plan', hq, hplan, hplan',
    ((hplans plan plan' hplan hplan').2 _ hmem rfl).1⟩

end Wiring

end LoopNest
