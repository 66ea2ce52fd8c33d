import Mathlib
import LoopNest.Proofs.Flow.Nesting
/-!
# Proofs.Flow.Refinement — layering finds what exhaustive search finds

Both schedulers look for the least scheduled order.  Such an order is put together from its layers
(`Proofs.Flow.Nesting`), the least one from the least order of every layer (`layersFrom_least`), and these are what the
layers are sorted into.  Without nesting there is no scheduled order, and both fail (`Scheduled.nested`).
-/
namespace LoopNest
namespace Flow

open LoopNest.Graph (WellFormed Topological mem_descendants nodup_descendants)
open Agenda (positions)

/-! ## The least order of every layer -/

/-- Lists of the same length, put before others, are compared first. -/
theorem not_append_lt_append : ∀ {a a' b b' : List Nat}, a.length = a'.length → ¬ a' < a → ¬ b' < b →
    ¬ a' ++ b' < a ++ b
  | [], [], _, _, _, _, hb => hb
  | [], _ :: _, _, _, hl, _, _ => by cases hl
  | _ :: _, [], _, _, hl, _, _ => by cases hl
  | x :: a, y :: a', b, b', hl, ha, hb => by
    rw [List.cons_append, List.cons_append]
    rw [List.cons_lt_cons_iff] at ha ⊢
    rintro (hlt | ⟨heq, hlt⟩)
    · exact ha (Or.inl hlt)
    · exact not_append_lt_append (Nat.succ.inj hl) (fun h => ha (Or.inr ⟨heq, h⟩)) hb hlt

/-- **A layer of an acyclic graph is sorted into its least topological order.** -/
theorem layer_least {g : Graph Node} (hg : g.WellFormed) (ha : g.Acyclic) (ns : List Nest) (k : Nat) :
    ∃ here, layer g ns k = .ok here ∧ (layerGraph g ns k).Topological here ∧
      ∀ o, (layerGraph g ns k).Topological o → ¬ positions g.nodes o < positions g.nodes here := by
  have hl : (layerGraph g ns k).WellFormed := hg.induced _
  have hla : (layerGraph g ns k).Acyclic := by
    intro n hn
    refine ha n (Relation.TransGen.mono ?_ _ _ hn)
    exact fun u v h => (Graph.edge_induced.1 h).1
  have hsorted : (layerGraph g ns k).agenda.completions.Pairwise
      (fun o o' => positions g.nodes o < positions g.nodes o') := by
    refine Agenda.completions_sorted g.nodes _ ?_
    rw [Graph.keys_agenda]
    exact (Agenda.pairwise_idxOf hg.nodup_nodes).filter _
  obtain ⟨o, ho⟩ := hl.exists_topological_iff.2 hla
  cases hc : (layerGraph g ns k).agenda.completions with
  | nil =>
    have := hl.mem_completions_agenda.2 ho
    rw [hc] at this
    cases this
  | cons here rest =>
    rw [hc] at hsorted
    refine ⟨here, ?_, hl.mem_completions_agenda.1 (by rw [hc]; exact List.mem_cons_self), fun o' ho' => ?_⟩
    · have hsort := hl.topologicalOrder?_eq
      rw [hc, List.head?_cons] at hsort
      unfold layerGraph at hsort
      unfold layer
      rw [hsort]
    · have hmem := hl.mem_completions_agenda.2 ho'
      rw [hc] at hmem
      rcases List.mem_cons.1 hmem with rfl | hmem
      · exact List.lt_irrefl _
      · exact List.lt_asymm ((List.pairwise_cons.1 hsorted).1 o' hmem)

/-- **Layer by layer the least layered order is found.** -/
theorem layersFrom_least {g : Graph Node} (hg : g.WellFormed) (ha : g.Acyclic) (ns : List Nest) :
    ∀ (rest : List Nest) (k : Nat), ∃ o, layersFrom g ns k rest = .ok o ∧ Layered g ns k rest o ∧
      ∀ o', Layered g ns k rest o' → ¬ positions g.nodes o' < positions g.nodes o
  | [], k => layer_least hg ha ns k
  | a :: rest, k => by
    obtain ⟨here, hok, ht, hleast⟩ := layer_least hg ha ns k
    obtain ⟨inner, hok', hin, hleast'⟩ := layersFrom_least hg ha ns rest (k + 1)
    refine ⟨here ++ a.loop :: inner, ?_, ⟨here, inner, rfl, ht, hin⟩, ?_⟩
    · rw [layersFrom, hok]
      dsimp only
      rw [hok']
      rfl
    · rintro o' ⟨here', inner', rfl, ht', hin'⟩
      unfold positions
      rw [List.map_append, List.map_append]
      refine not_append_lt_append ?_ (hleast here' ht') ?_
      · rw [List.length_map, List.length_map, ht.perm.length_eq, ht'.perm.length_eq]
      · rw [List.map_cons, List.map_cons, List.cons_lt_cons_iff]
        rintro (hlt | ⟨-, hlt⟩)
        · exact Nat.lt_irrefl _ hlt
        · exact hleast' inner' hin' hlt

/-! ## Both schedulers -/

/-- **A graph with a scheduled order is nested**: of two loops the one with the smaller required index comes first, so
the other is inside of it. -/
theorem Scheduled.nested {g : Graph Node} (hg : g.WellFormed) {o : List Node} (h : Scheduled g o) : Nested g := by
  refine nested_of_comparable hg (h.topological.acyclic hg) (fun a ha hal b hb hbl hab => ?_)
  have hao := h.topological.perm.mem_iff.2 ha
  have hbo := h.topological.perm.mem_iff.2 hb
  rcases Nat.lt_or_gt_of_ne (fun heq => hab ((List.idxOf_inj hao).1 heq)) with hlt | hlt
  · exact Or.inl ((h.after_iff hg hao hal hbo).1 hlt)
  · exact Or.inr ((h.after_iff hg hbo hbl hao).1 hlt)

/-- **A nested graph is scheduled**, into its least scheduled order. -/
theorem schedule_of_nested {g : Graph Node} (hg : g.WellFormed) (hn : Nested g) :
    ∃ o, schedule g = .ok o ∧ Scheduled g o ∧ ∀ o', Scheduled g o' → ¬ positions g.nodes o' < positions g.nodes o := by
  have hiff : ∀ o, Layered g (nests g) 0 (nests g) o ↔ Scheduled g o :=
    fun o => (layered_iff hg hn (nests g) [] o rfl).trans (stage_zero_iff hg hn)
  obtain ⟨o, hok, hlay, hleast⟩ := layersFrom_least hg hn.acyclic (nests g) (nests g) 0
  have hs := (hiff o).1 hlay
  refine ⟨o, ?_, hs, fun o' ho' => hleast o' ((hiff o').2 ho')⟩
  unfold schedule
  rw [hg.hasCycle_eq_false_iff.2 hn.acyclic, if_neg Bool.false_ne_true]
  dsimp only
  rw [(apart?_nests_eq_none_iff g).2 hn.chain]
  dsimp only
  rw [hok]
  dsimp only
  rw [(scheduleProblem?_eq_none_iff hg).2 hs]

theorem schedule_of_cyclic {g : Graph Node} (hg : g.WellFormed) (hc : ¬ g.Acyclic) : schedule g = .error .cyclic := by
  have hcycle : g.hasCycle = true := by
    by_contra h
    exact hc (hg.hasCycle_eq_false_iff.1 (by simpa using h))
  unfold schedule
  rw [if_pos hcycle]

theorem schedule_of_apart {g : Graph Node} (hg : g.WellFormed) (ha : g.Acyclic) {a b : Node}
    (hap : apart? (nests g) = some (a, b)) : schedule g = .error (.loopsApart a b) := by
  unfold schedule
  rw [hg.hasCycle_eq_false_iff.2 ha, if_neg Bool.false_ne_true]
  dsimp only
  rw [hap]

/-- **A graph that is not nested is refused**, for a cycle or for two loops apart. -/
theorem schedule_of_not_nested {g : Graph Node} (hg : g.WellFormed) (hn : ¬ Nested g) :
    schedule g = .error .cyclic ∨ ∃ a b, schedule g = .error (.loopsApart a b) := by
  by_cases ha : g.Acyclic
  · cases hap : apart? (nests g) with
    | some p => exact Or.inr ⟨p.1, p.2, schedule_of_apart hg ha hap⟩
    | none => exact absurd ⟨ha, (apart?_nests_eq_none_iff g).1 hap⟩ hn
  · exact Or.inl (schedule_of_cyclic hg ha)

/-- **The two schedulers agree on every graph**: they give the same order, or both fail with an internal error. -/
theorem schedule_agrees_with_exhaustive {g : Graph Node} (hg : g.Built) :
    (∃ o, schedule g = .ok o ∧ scheduleExhaustive g = .ok o) ∨
    (∃ e f, schedule g = .error e ∧ scheduleExhaustive g = .error f ∧ e.code = .internal ∧ f.code = .internal) := by
  have hw := hg.wellFormed
  by_cases hn : Nested g
  · obtain ⟨o, hok, hs, hleast⟩ := schedule_of_nested hw hn
    exact Or.inl ⟨o, hok, scheduleExhaustive_of_least hw hs hleast⟩
  · have hex := scheduleExhaustive_of_none hw (fun o hs => hn (hs.nested hw))
    rcases schedule_of_not_nested hw hn with h | ⟨a, b, h⟩
    · exact Or.inr ⟨.cyclic, .noOrder, h, hex, rfl, rfl⟩
    · exact Or.inr ⟨.loopsApart a b, .noOrder, h, hex, rfl, rfl⟩

/-- Two loops, a statement in each layer, and a node that comes last and is related to nothing. -/
def twoLoops : List (Graph.Operation Node) :=
  [.addEdge (.fromFiber "A" "K") (.loop "I"), .addEdge (.loop "I") (.loop "J"), .addEdge (.loop "J") (.other .body),
    .addEdge (.loop "I") (.fromFiber "B" "K"), .addEdge (.fromFiber "B" "K") (.loop "J"), .addNode (.other .output)]

theorem schedule_agrees_on_twoLoops :
    (Graph.run twoLoops).Built ∧ scheduleExhaustive (Graph.run twoLoops) =
      .ok [.fromFiber "A" "K", .other .output, .loop "I", .fromFiber "B" "K", .loop "J", .other .body] := by
  have hb : (Graph.run twoLoops).Built := ⟨_, rfl⟩
  have hs : schedule (Graph.run twoLoops) =
      .ok [.fromFiber "A" "K", .other .output, .loop "I", .fromFiber "B" "K", .loop "J", .other .body] := by cbv
  refine ⟨hb, ?_⟩
  rcases schedule_agrees_with_exhaustive hb with ⟨o, h, hex⟩ | ⟨e, f, h, -⟩
  · rw [hs] at h; rw [hex, ← h]
  · rw [hs] at h; cases h

end Flow
end LoopNest
