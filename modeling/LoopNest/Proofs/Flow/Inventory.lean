import Mathlib
import LoopNest.Proofs.Flow.Rerooting
/-!
# Proofs.Flow.Inventory — the statements of a program

The nodes of the graph are added with their edges, by several routines, and a node that is added twice is one node.  So
which statements there are follows from where a walk comes to.  It meets each split once (`Meets.unique`), since the
outer part of a rank that was split stays with the tensor, and no two splits leave the same ranks (`Meets.source_eq`).
So the nodes other than bookkeeping are the `Statement`s (`statement_iff`), and what is left after pruning is one node
for each entry of the list `statements` (`prune_lists_statements`).
-/
namespace LoopNest

theorem Program.mem_nodes_graph {p : Program} {raw : Graph Node} (h : p.graph = .ok raw) {n : Node} :
    n ∈ raw.nodes ↔ ∃ m, raw.Edge n m ∨ raw.Edge m n := by
  have hw := wellFormed_of_graph h
  refine ⟨fun hn => ?_, fun ⟨m, hm⟩ => hm.elim hw.start_mem hw.end_mem⟩
  rw [Program.graph] at h
  cases hes : Wiring.edges p with
  | error e => rw [hes] at h; cases h
  | ok es =>
    rw [hes] at h
    cases h
    rcases (Graph.mem_nodes_addEdges es Graph.empty).1 hn with hn | ⟨e, he, rfl | rfl⟩
    · cases hn
    · exact ⟨e.2, .inl (edge_graph.2 he)⟩
    · exact ⟨e.1, .inr (edge_graph.2 he)⟩

namespace Wiring

open Program (Obtainable)

variable {p : Program} {t : Tensor} {x y : String} {s : Split} {b c d f : Cursor} {es fs : List Dependency} {n m : Node}

/-! ## A walk comes to no place twice -/

theorem Trip.linear (h : Trip p c es d) (h' : Trip p c fs f) : (∃ gs, Trip p d gs f) ∨ ∃ gs, Trip p f gs d := by
  induction h generalizing fs with
  | stay => exact .inl ⟨fs, h'⟩
  | go hm htrip ih =>
    cases h' with
    | stay => exact .inr ⟨_, .go hm htrip⟩
    | go hm' htrip' =>
      obtain ⟨-, rfl⟩ := hm.deterministic hm'
      exact ih htrip'

/-- **Of two splits that a walk meets, one comes after the other is made.** -/
theorem Meets.linear (h : Meets p t x c d) (h' : Meets p t y b f) :
    c = b ∨ (∃ es, Trip p d es b) ∨ ∃ es, Trip p f es c := by
  have hrest : ∀ {x c d b es}, Meets p t x c d → Trip p c es b → c = b ∨ ∃ es, Trip p d es b := by
    intro x c d b es h htrip
    obtain ⟨fs, -, hm⟩ := h.exists_move
    cases htrip with
    | stay => exact .inl rfl
    | go hm' htrip => exact .inr ⟨_, (hm.deterministic hm').2 ▸ htrip⟩
  obtain ⟨start, es, hopens, htrip⟩ := stands_iff.1 h.1
  obtain ⟨start', fs, hopens', htrip'⟩ := stands_iff.1 h'.1
  rw [← hopens.unique hopens'] at htrip'
  rcases htrip.linear htrip' with ⟨gs, hgs⟩ | ⟨gs, hgs⟩
  · exact (hrest h hgs).imp_right .inl
  · exact (hrest h' hgs).imp Eq.symm .inr

theorem Trip.stepsLeft_le (hp : p.rules.Coherent) (h : Trip p c es d) : stepsLeft p d ≤ stepsLeft p c := by
  induction h with
  | stay => exact Nat.le_refl _
  | go hm _ ih => exact Nat.le_trans ih (Nat.le_of_lt (hm.stepsLeft_lt hp))

theorem Meets.stepsLeft_lt (hp : p.rules.Coherent) (h : Meets p t x c d) : stepsLeft p d < stepsLeft p c := by
  obtain ⟨es, -, hm⟩ := h.exists_move
  exact hm.stepsLeft_lt hp

/-- **After different splits a walk has different ranks pending.** -/
theorem Meets.source_eq (hp : p.rules.Coherent) (h : Meets p t x c d) (h' : Meets p t y b f)
    (hpend : d.pending = f.pending) : x = y := by
  have hleft : stepsLeft p d = stepsLeft p f := by rw [stepsLeft, hpend]; rfl
  have hlt := h.stepsLeft_lt hp
  have hlt' := h'.stepsLeft_lt hp
  rcases h.linear h' with rfl | ⟨es, htrip⟩ | ⟨es, htrip⟩
  · obtain ⟨rest, hx⟩ := h.exists_pending
    obtain ⟨rest', hy⟩ := h'.exists_pending
    rw [hx] at hy
    exact (List.cons.inj hy).1
  · have hle := htrip.stepsLeft_le hp
    omega
  · have hle := htrip.stepsLeft_le hp
    omega

theorem Opens.pending_ne (hp : p.rules.Coherent) (hc : Opens p t c) (h : Meets p t x b d) :
    c.pending ≠ d.pending := by
  obtain ⟨start, es, hopens, htrip⟩ := stands_iff.1 h.1
  rw [hopens.unique hc] at htrip
  have hlt := h.stepsLeft_lt hp
  have hle := htrip.stepsLeft_le hp
  intro heq
  rw [stepsLeft, ← heq] at hlt
  exact absurd hlt (Nat.not_lt_of_le hle)

section
variable (hp : p.Named) (ht : t ∈ p.tensors)
include hp ht

/-- **A rank that is no longer split stays with the tensor**, pending or consumed. -/
theorem Stands.mem_ranks (hc : Stands p t c) (h : Trip p c es d) (hun : p.rules.split? y = none) (hy : y ∈ c.ranks) :
    y ∈ d.ranks := by
  induction h with
  | stay => exact hy
  | @go c d _ es fs hm _ ih =>
    refine ih (hc.move hm) ?_
    unfold Cursor.ranks at hy ⊢
    rcases hc.enters_or_meets hm with ⟨x, hx⟩ | ⟨x, hx⟩
    · obtain ⟨rest, hpend, rfl⟩ := Cursor.pop?_eq_some.1 hx.2.1
      rwa [hpend, ← List.singleton_append, ← List.append_assoc] at hy
    · obtain ⟨s, rest, hs, -, hpend, hperm, -, hd, -⟩ := hx.exists_split hp ht
      have hconsumed : d.consumed = c.consumed := by rw [hd]; rfl
      rw [hpend] at hy
      rw [hconsumed, List.mem_append, hperm.mem_iff]
      rcases List.mem_append.1 hy with hy | hy
      · exact .inl hy
      rcases List.mem_cons.1 hy with rfl | hy
      · rw [hun] at hs
        cases hs
      · exact .inr (List.mem_append_right _ hy)

/-- A rank that is pending, and split, has its outer part neither pending nor consumed. -/
theorem OnTrack.outer_not_mem (hc : OnTrack p t c) (hx : x ∈ c.pending) (hs : p.rules.split? x = some s) :
    s.outer ∉ c.ranks := by
  have hnd := hc.nodup hp ht
  have hout : s.outer ∈ p.loopsFor x := by
    rw [Program.loopsFor_eq_cons hp.coherent hs]
    exact List.mem_cons_self
  have hun := Program.unsplit_outer hp.coherent hs
  intro hmem
  rcases List.mem_append.1 hmem with hmem | hmem
  · exact (List.nodup_append.1 hnd).2.2 _ hmem _ (List.mem_flatMap.2 ⟨x, hx, hout⟩) rfl
  · -- What two pending ranks become in the end is different, and the outer part becomes itself.
    have hne : x ≠ s.outer := by
      rintro heq
      rw [← heq, hs] at hun
      cases hun
    have hpair := (List.nodup_flatMap.1 (List.nodup_append.1 hnd).2.1).2
    have : Std.Symm (Function.onFun List.Disjoint p.loopsFor) := ⟨fun _ _ h => h.symm⟩
    refine hpair.forall hx hmem hne hout ?_
    rw [Program.loopsFor_of_unsplit hun]
    exact List.mem_singleton_self _

theorem Meets.not_again (h : Meets p t x c d) (htrip : Trip p d es b) : ¬ Meets p t x b f := by
  intro h'
  obtain ⟨fs, -, hm⟩ := h.exists_move
  obtain ⟨s, rest, hs, -, -, hperm, -⟩ := h.exists_split hp ht
  obtain ⟨rest', hpend'⟩ := h'.exists_pending
  have hout : s.outer ∈ d.pending := hperm.mem_iff.2 (List.mem_append_left _ (Split.mem_pair.2 (.inl rfl)))
  have hstill := (h.1.move hm).mem_ranks hp ht htrip (Program.unsplit_outer hp.coherent hs)
    (List.mem_append_right _ hout)
  exact (h'.1.onTrack hp ht).outer_not_mem hp ht (by rw [hpend']; exact List.mem_cons_self) hs hstill

/-- **A walk meets each split once.** -/
theorem Meets.unique (h : Meets p t x c d) (h' : Meets p t x b f) : d = f := by
  rcases h.linear h' with rfl | ⟨es, htrip⟩ | ⟨es, htrip⟩
  · obtain ⟨es, -, hm⟩ := h.exists_move
    obtain ⟨fs, -, hm'⟩ := h'.exists_move
    exact (hm.deterministic hm').2
  · exact absurd h' (h.not_again hp ht htrip)
  · exact absurd h (h'.not_again hp ht htrip)

end

/-! ## What the walk of a tensor meets -/

/-- The ranks of a tensor that dynamic steps split: declared ones, each with the ranks between its splits. -/
def dynamicSources (p : Program) (t : Tensor) : List String := (t.ranks.filter p.rules.isDynamic).flatMap (sources p)

/-- **The course of a walk**: it starts at `start`, and `after x` is where it goes on from the split of `x`. -/
structure Tracks (p : Program) (t : Tensor) (start : Cursor) (after : String → Cursor) : Prop where
  opens : Opens p t start
  meets : ∀ x d, (∃ c, Meets p t x c d) ↔ x ∈ dynamicSources p t ∧ d = after x

theorem mem_dynamicSources (hp : p.Consistent) (ht : t ∈ p.tensors) : x ∈ dynamicSources p t ↔
    ∃ s, p.rules.split? x = some s ∧ s.step.isDynamic = true ∧ s.rule.rank ∈ t.ranks := by
  simp only [dynamicSources, List.mem_flatMap, List.mem_filter]
  constructor
  · rintro ⟨y, ⟨hy, hdyn⟩, hx⟩
    obtain ⟨u, hu, -⟩ := exists_split_of_isDynamic hdyn
    obtain ⟨s, hs, rfl⟩ := (mem_sources hp.coherent hu (hp.index_declared t ht y hy u hu)).1 hx
    exact ⟨s, hs, by rw [← hp.coherent.isDynamic_rank hs, hdyn], hy⟩
  · rintro ⟨s, hs, hdyn, hrank⟩
    obtain ⟨u, hu, -, hi⟩ := hp.coherent.split?_rank hs
    have hdyn' : p.rules.isDynamic s.rule.rank = true := by rw [hp.coherent.isDynamic_rank hs, hdyn]
    exact ⟨s.rule.rank, ⟨hrank, hdyn'⟩, (mem_sources hp.coherent hu hi).2 ⟨s, hs, rfl⟩⟩

theorem nodup_dynamicSources (hp : p.Named) (ht : t ∈ p.tensors) : (dynamicSources p t).Nodup := by
  have hsplit : ∀ y ∈ t.ranks.filter p.rules.isDynamic, ∃ s, p.rules.split? y = some s ∧ s.index = 0 := by
    intro y hy
    obtain ⟨hy, hdyn⟩ := List.mem_filter.1 hy
    obtain ⟨s, hs, -⟩ := exists_split_of_isDynamic hdyn
    exact ⟨s, hs, hp.index_declared t ht y hy s hs⟩
  refine List.nodup_flatMap.2 ⟨fun y hy => ?_, ?_⟩
  · obtain ⟨s, hs, h0⟩ := hsplit y hy
    rw [sources_eq hp.coherent hs h0,
      Rule.map_source_splits (hp.coherent.steps_ne_nil _ (hp.coherent.split?_eq_some_iff.1 hs).1)]
    exact Rule.nodup_sources
  · refine ((hp.nodup_ranks t ht).filter _).imp_of_mem ?_
    intro y z hy hz hne x hxy hxz
    obtain ⟨s, hs, h0⟩ := hsplit y hy
    obtain ⟨s', hs', h0'⟩ := hsplit z hz
    obtain ⟨u, hu, hy⟩ := (mem_sources hp.coherent hs h0).1 hxy
    obtain ⟨u', hu', hz⟩ := (mem_sources hp.coherent hs' h0').1 hxz
    rw [hu] at hu'
    cases hu'
    exact hne (hy.symm.trans hz)

/-- **A tensor has as many dynamic splits as the rules of its dynamic ranks have steps.** -/
theorem length_dynamicSources (hp : p.Consistent) (ht : t ∈ p.tensors) : (dynamicSources p t).length =
    ((t.ranks.filter p.rules.isDynamic).map fun x => (p.rules.steps x).length).sum := by
  rw [dynamicSources, List.length_flatMap]
  refine congrArg List.sum (List.map_congr_left fun x hx => ?_)
  obtain ⟨hx, hdyn⟩ := List.mem_filter.1 hx
  obtain ⟨s, hs, -⟩ := exists_split_of_isDynamic hdyn
  have h0 := hp.index_declared t ht x hx s hs
  rw [sources_eq hp.coherent hs h0, RuleSet.steps, hp.coherent.rule?_eq hs h0]
  simp [Rule.splits]

theorem Meets.mem_dynamicSources (hp : p.Named) (ht : t ∈ p.tensors) (h : Meets p t x c d) :
    x ∈ dynamicSources p t := by
  obtain ⟨s, rest, hs, hdyn, hpend, -⟩ := h.exists_split hp ht
  have hx := (h.1.onTrack hp ht).obtained x (by rw [hpend]; exact List.mem_cons_self)
  exact (Wiring.mem_dynamicSources hp.toConsistent ht).2 ⟨s, hs, hdyn, hx.rule_declared hp.toConsistent ht hs⟩

theorem exists_tracks (hp : p.Named) (ht : t ∈ p.tensors) : ∃ start after, Tracks p t start after := by
  obtain ⟨start, hopens⟩ := exists_opens hp.toConsistent ht
  have hmeets : ∀ x ∈ dynamicSources p t, ∃ d c, Meets p t x c d := by
    intro x hx
    obtain ⟨s, hs, hdyn, hrank⟩ := (mem_dynamicSources hp.toConsistent ht).1 hx
    obtain ⟨c, d, h⟩ := exists_meets hp ht hs hdyn hrank
    exact ⟨d, c, h⟩
  have : Nonempty Cursor := ⟨start⟩
  choose! after hafter using hmeets
  refine ⟨start, after, hopens, fun x d => ⟨fun ⟨c, h⟩ => ?_, fun ⟨hx, hd⟩ => hd ▸ hafter x hx⟩⟩
  have hx := h.mem_dynamicSources hp ht
  obtain ⟨b, h'⟩ := hafter x hx
  exact ⟨hx, h.unique hp ht h'⟩

theorem Tracks.takes_iff {after : String → Cursor} (h : Tracks p t f after) :
    Takes p t c ↔ c = f ∨ ∃ x ∈ dynamicSources p t, c = after x := by
  refine or_congr ⟨fun hc => hc.unique h.opens, fun hc => hc ▸ h.opens⟩ (exists_congr fun x => ?_)
  exact h.meets x c

/-! ## The statements -/

/-- **A statement of a program.** -/
inductive Statement (p : Program) : Node → Prop where
  | anchor {n : Node} : n ∈ [output, graphics, body, footer] → Statement p n
  | loop {x : String} : x ∈ p.loops → Statement p (.loop x)
  | taken {t : Tensor} {c : Cursor} : t ∈ p.tensors → Takes p t c → Statement p (.ofSwizzle t.root c.pending)
  | static {t : Tensor} {x : String} : t ∈ p.tensors → x ∈ t.ranks → p.rules.isStatic x = true →
      Statement p (.ofPart t.root [x])
  | dynamic {t : Tensor} {x : String} : t ∈ p.tensors → x ∈ dynamicSources p t → Statement p (.ofPart t.root [x])
  | remade {t : Tensor} {x : String} : t ∈ p.tensors → x ∈ dynamicSources p t → Statement p (.fromFiber t.root x)

/-- **What depends on what is a statement, or mere bookkeeping.** -/
theorem Depends.statement (hp : p.Named) (ht : t ∈ p.tensors) (hd : Depends p t n m) :
    (n.isBookkeeping = true ∨ Statement p n) ∧ (m.isBookkeeping = true ∨ Statement p m) := by
  cases hd with
  | rank hx hd =>
    cases hd with
    | declared => exact ⟨.inl rfl, .inl rfl⟩
    | source hst => exact ⟨.inl rfl, .inr (.static ht hx hst)⟩
    | final hst _ => exact ⟨.inr (.static ht hx hst), .inl rfl⟩
    | graphics hst => exact ⟨.inr (.static ht hx hst), .inr (.anchor (by simp))⟩
    | split hs hdyn hrank hd =>
      have hmet := (mem_dynamicSources hp.toConsistent ht).2 ⟨_, hs, hdyn, hrank ▸ hx⟩
      cases hd with
      | source => exact ⟨.inl rfl, .inr (.dynamic ht hmet)⟩
      | made _ => exact ⟨.inr (.dynamic ht hmet), .inl rfl⟩
      | led _ => exact ⟨.inl rfl, .inr (.dynamic ht hmet)⟩
  | tensorTaken hc => exact ⟨.inl rfl, .inr (.taken ht hc)⟩
  | rankTaken hc _ => exact ⟨.inl rfl, .inr (.taken ht hc)⟩
  | root hc => exact ⟨.inr (.taken ht hc), .inl rfl⟩
  | remade hm => exact ⟨.inl rfl, .inr (.remade ht (hm.mem_dynamicSources hp ht))⟩
  | cut hm =>
    have hmet := hm.mem_dynamicSources hp ht
    exact ⟨.inr (.remade ht hmet), .inr (.dynamic ht hmet)⟩
  | enter hm => exact ⟨.inl rfl, .inr (.loop (hm.mem_loops hp ht))⟩
  | next hm => exact ⟨.inr (.loop (hm.mem_loops hp ht)), .inl rfl⟩
  | finish _ _ => exact ⟨.inl rfl, .inr (.anchor (by simp))⟩

theorem statement_of_mem_skeleton {e : Dependency} (he : e ∈ skeleton p) :
    (e.1.isBookkeeping = true ∨ Statement p e.1) ∧ (e.2.isBookkeeping = true ∨ Statement p e.2) := by
  have hall : ∀ n ∈ output :: (graphics :: startLoop :: p.loops.map Node.loop ++ [body, footer]),
      n.isBookkeeping = true ∨ Statement p n := by
    intro n hn
    simp only [List.cons_append, List.mem_cons, List.mem_append, List.mem_map, List.not_mem_nil, or_false] at hn
    rcases hn with rfl | rfl | rfl | ⟨x, hx, rfl⟩ | rfl | rfl
    · exact .inr (.anchor (by simp))
    · exact .inr (.anchor (by simp))
    · exact .inl rfl
    · exact .inr (.loop hx)
    · exact .inr (.anchor (by simp))
    · exact .inr (.anchor (by simp))
  obtain ⟨h1, h2⟩ := mem_of_mem_chain e he
  exact ⟨hall _ h1, hall _ h2⟩

theorem Statement.isBookkeeping_eq (h : Statement p n) : n.isBookkeeping = false := by
  cases h with
  | anchor hn =>
    simp only [List.mem_cons, List.not_mem_nil, or_false] at hn
    rcases hn with rfl | rfl | rfl | rfl <;> rfl
  | _ => rfl

section
variable (hp : p.Named) {raw : Graph Node} (hraw : p.graph = .ok raw)
include hp hraw

theorem Statement.mem_nodes (h : Statement p n) : n ∈ raw.nodes := by
  rw [Program.mem_nodes_graph hraw]
  have hskeleton : ∀ k ∈ graphics :: startLoop :: p.loops.map Node.loop ++ [body, footer], ∃ m, raw.Edge m k := by
    intro k hk
    obtain ⟨e, he, rfl⟩ := exists_mem_chain (n := output) hk
    exact ⟨e.1, (edge_iff hp hraw).2 (.inl he)⟩
  cases h with
  | anchor hn =>
    simp only [List.mem_cons, List.not_mem_nil, or_false] at hn
    rcases hn with rfl | rfl | rfl | rfl
    · exact ⟨graphics, .inl ((edge_iff hp hraw).2 (.inl List.mem_cons_self))⟩
    all_goals exact (hskeleton _ (by simp)).imp fun m => .inr
  | loop hx => exact (hskeleton _ (by simp [hx])).imp fun m => .inr
  | taken ht hc => exact ⟨_, .inl (edge_of_depends hp hraw ht (.root hc))⟩
  | static ht hx hst => exact ⟨_, .inr (edge_of_depends hp hraw ht (.rank hx (.source hst)))⟩
  | dynamic ht hx =>
    obtain ⟨s, hs, hdyn, hrank⟩ := (mem_dynamicSources hp.toConsistent ht).1 hx
    exact ⟨_, .inr (edge_of_depends hp hraw ht (.rank hrank (.split hs hdyn rfl .source)))⟩
  | remade ht hx =>
    obtain ⟨s, hs, hdyn, hrank⟩ := (mem_dynamicSources hp.toConsistent ht).1 hx
    obtain ⟨c, d, hm⟩ := exists_meets hp ht hs hdyn hrank
    exact ⟨_, .inl (edge_of_depends hp hraw ht (.cut hm))⟩

/-- **The nodes that are no bookkeeping are the statements.** -/
theorem statement_iff : n ∈ raw.nodes ∧ n.isBookkeeping = false ↔ Statement p n := by
  refine ⟨fun ⟨hn, hkeep⟩ => ?_, fun h => ⟨h.mem_nodes hp hraw, h.isBookkeeping_eq⟩⟩
  have hends : ∀ {a b}, raw.Edge a b →
      (a.isBookkeeping = true ∨ Statement p a) ∧ (b.isBookkeeping = true ∨ Statement p b) := by
    intro a b he
    rcases (edge_iff hp hraw).1 he with he | he | ⟨t, ht, hd⟩
    · exact statement_of_mem_skeleton he
    · cases he
      exact ⟨.inr (.anchor (by simp)), .inl rfl⟩
    · exact hd.statement hp ht
  have hnot : ¬ n.isBookkeeping = true := Bool.not_eq_true _ ▸ hkeep
  obtain ⟨m, he | he⟩ := (Program.mem_nodes_graph hraw).1 hn
  · exact (hends he).1.resolve_left hnot
  · exact (hends he).2.resolve_left hnot

end

/-! ## The list of the statements -/

/-- **The statements of a tensor**: its root is taken at the start of its walk and after each split that the walk meets,
it is partitioned along the ranks that are split, and made anew where a dynamic step splits it. -/
def tensorStatements (p : Program) (t : Tensor) (start : Cursor) (after : String → Cursor) : List Node :=
  let met := dynamicSources p t
  .ofSwizzle t.root start.pending :: met.map (fun x => .ofSwizzle t.root (after x).pending) ++
    ((t.ranks.filter p.rules.isStatic ++ met).map (fun x => .ofPart t.root [x]) ++ met.map (.fromFiber t.root))

/-- **The statements of a program**: the points that are no mere bookkeeping, the loops, and what each tensor needs. -/
def statements (p : Program) (start : Tensor → Cursor) (after : Tensor → String → Cursor) : List Node :=
  [output, graphics, body, footer] ++
    (p.loops.map .loop ++ p.tensors.flatMap fun t => tensorStatements p t (start t) (after t))

theorem Stands.swizzle_inj (hp : p.Named) (ht : t ∈ p.tensors) (hc : Stands p t c) (hd : Stands p t d)
    (h : Node.ofSwizzle t.root c.pending = .ofSwizzle t.root d.pending) : c.pending = d.pending := by
  have hplain : ∀ {c}, Stands p t c → RankTuple.ofList c.pending = ⟨c.pending⟩ := fun hc =>
    RankTuple.ofList_of_plain fun x hx => ((hc.onTrack hp ht).obtained x hx).plain hp ht
  rw [Node.ofSwizzle, Node.ofSwizzle, hplain hc, hplain hd] at h
  exact RankTuple.mk.inj (Node.swizzle.inj h).2

theorem ofPart_inj {root : String} (hx : Plain x) (hy : Plain y) (h : Node.ofPart root [x] = .ofPart root [y]) :
    x = y := by
  have hplain : ∀ {z}, Plain z → RankTuple.ofList [z] = ⟨[z]⟩ := fun hz =>
    RankTuple.ofList_of_plain fun w hw => List.mem_singleton.1 hw ▸ hz
  rw [Node.ofPart, Node.ofPart, hplain hx, hplain hy] at h
  exact (List.cons.inj (RankTuple.mk.inj (Node.part.inj h).2)).1

section
variable {start : Cursor} {after : String → Cursor}

theorem root_of_mem_tensorStatements (h : n ∈ tensorStatements p t start after) :
    n.root = t.root ∧ n.kind ≠ .loop ∧ n.kind ≠ .other := by
  simp only [tensorStatements, List.mem_append, List.mem_cons, List.mem_map] at h
  rcases h with (rfl | ⟨x, -, rfl⟩) | ⟨x, -, rfl⟩ | ⟨x, -, rfl⟩ <;>
    simp [Node.root, Node.kind, Node.ofSwizzle, Node.ofPart]

/-- **The statements of a tensor are all different.** -/
theorem Tracks.nodup (hp : p.Named) (ht : t ∈ p.tensors) (h : Tracks p t start after) :
    (tensorStatements p t start after).Nodup := by
  have hmet := nodup_dynamicSources hp ht
  have hmeets : ∀ x ∈ dynamicSources p t, ∃ c, Meets p t x c (after x) := fun x hx => (h.meets x _).2 ⟨hx, rfl⟩
  have htaken : ∀ x ∈ dynamicSources p t, Stands p t (after x) := fun x hx =>
    Takes.stands (.inr ⟨x, hmeets x hx⟩)
  have hplain : ∀ x ∈ t.ranks.filter p.rules.isStatic ++ dynamicSources p t, Plain x := by
    intro x hx
    rcases List.mem_append.1 hx with hx | hx
    · exact hp.plain_declared t ht x (List.mem_of_mem_filter hx)
    · obtain ⟨s, hs, -, hrank⟩ := (mem_dynamicSources hp.toConsistent ht).1 hx
      exact (Obtainable.of_rule hp.toConsistent hs hrank).plain hp ht
  have hsplit : (t.ranks.filter p.rules.isStatic ++ dynamicSources p t).Nodup := by
    refine List.nodup_append.2 ⟨(hp.nodup_ranks t ht).filter _, hmet, fun x hx y hy heq => ?_⟩
    obtain ⟨s, hs, hdyn, -⟩ := (mem_dynamicSources hp.toConsistent ht).1 (heq ▸ hy)
    have hst := (List.mem_filter.1 hx).2
    rw [RuleSet.isStatic, hs, Option.any_some, hdyn] at hst
    cases hst
  refine List.nodup_append.2 ⟨List.nodup_cons.2 ⟨fun hmem => ?_, ?_⟩, List.nodup_append.2 ⟨?_, ?_, ?_⟩, ?_⟩
  · obtain ⟨x, hx, heq⟩ := List.mem_map.1 hmem
    obtain ⟨c, hm⟩ := hmeets x hx
    exact h.opens.pending_ne hp.coherent hm (h.opens.stands.swizzle_inj hp ht (htaken x hx) heq.symm)
  · refine hmet.map_on fun x hx y hy heq => ?_
    obtain ⟨c, hm⟩ := hmeets x hx
    obtain ⟨d, hm'⟩ := hmeets y hy
    exact hm.source_eq hp.coherent hm' ((htaken x hx).swizzle_inj hp ht (htaken y hy) heq)
  · exact hsplit.map_on fun x hx y hy heq => ofPart_inj (hplain x hx) (hplain y hy) heq
  · exact hmet.map fun x y heq => (Node.fromFiber.inj heq).2
  · simp only [List.mem_map]
    rintro _ ⟨x, -, rfl⟩ _ ⟨y, -, rfl⟩
    simp [Node.ofPart]
  · simp only [List.mem_append, List.mem_cons, List.mem_map]
    rintro _ (rfl | ⟨x, -, rfl⟩) _ (⟨y, -, rfl⟩ | ⟨y, -, rfl⟩) <;> simp [Node.ofSwizzle, Node.ofPart]

end

section
variable {start : Tensor → Cursor} {after : Tensor → String → Cursor}

/-- **The statements of a program are all different.** -/
theorem nodup_statements (hp : p.Named) (h : ∀ t ∈ p.tensors, Tracks p t (start t) (after t)) :
    (statements p start after).Nodup := by
  refine List.nodup_append.2 ⟨by decide, List.nodup_append.2 ⟨?_, List.nodup_flatMap.2 ⟨?_, ?_⟩, ?_⟩, ?_⟩
  · exact hp.nodup_loops.map fun _ _ heq => Node.loop.inj heq
  · exact fun t ht => (h t ht).nodup hp ht
  · refine (List.pairwise_map.1 hp.nodup_roots).imp ?_
    intro t u hne n hn hn'
    exact hne ((root_of_mem_tensorStatements hn).1.symm.trans (root_of_mem_tensorStatements hn').1)
  · intro n hn m hm heq
    obtain ⟨x, -, rfl⟩ := List.mem_map.1 hn
    obtain ⟨t, -, hm⟩ := List.mem_flatMap.1 hm
    exact (root_of_mem_tensorStatements hm).2.1 (heq ▸ rfl)
  · intro n hn m hm heq
    have hkind : n.kind = .other := by
      simp only [List.mem_cons, List.not_mem_nil, or_false] at hn
      rcases hn with rfl | rfl | rfl | rfl <;> rfl
    rw [heq] at hkind
    rcases List.mem_append.1 hm with hm | hm
    · obtain ⟨x, -, rfl⟩ := List.mem_map.1 hm
      cases hkind
    · obtain ⟨t, -, hm⟩ := List.mem_flatMap.1 hm
      exact (root_of_mem_tensorStatements hm).2.2 hkind

theorem mem_statements (h : ∀ t ∈ p.tensors, Tracks p t (start t) (after t)) :
    n ∈ statements p start after ↔ Statement p n := by
  simp only [statements, tensorStatements, List.mem_append, List.mem_cons, List.mem_map,
    List.mem_flatMap, List.mem_filter]
  constructor
  · rintro (hn | ⟨x, hx, rfl⟩ | ⟨t, ht, (rfl | ⟨x, hx, rfl⟩) | ⟨x, ⟨hx, hst⟩ | hx, rfl⟩ | ⟨x, hx, rfl⟩⟩)
    · exact .anchor (by simpa using hn)
    · exact .loop hx
    · exact .taken ht (.inl (h t ht).opens)
    · exact .taken ht ((h t ht).takes_iff.2 (.inr ⟨x, hx, rfl⟩))
    · exact .static ht hx hst
    · exact .dynamic ht hx
    · exact .remade ht hx
  · intro hn
    cases hn with
    | anchor hn => exact .inl (by simpa using hn)
    | loop hx => exact .inr (.inl ⟨_, hx, rfl⟩)
    | static ht hx hst => exact .inr (.inr ⟨_, ht, .inr (.inl ⟨_, .inl ⟨hx, hst⟩, rfl⟩)⟩)
    | dynamic ht hx => exact .inr (.inr ⟨_, ht, .inr (.inl ⟨_, .inr hx, rfl⟩)⟩)
    | remade ht hx => exact .inr (.inr ⟨_, ht, .inr (.inr ⟨_, hx, rfl⟩)⟩)
    | taken ht hc =>
      rcases (h _ ht).takes_iff.1 hc with rfl | ⟨x, hx, rfl⟩
      · exact .inr (.inr ⟨_, ht, .inl (.inl rfl)⟩)
      · exact .inr (.inr ⟨_, ht, .inl (.inr ⟨x, hx, rfl⟩)⟩)

/-- The number of the statements. -/
theorem length_statements (hp : p.Consistent) : (statements p start after).length = 4 + p.loops.length +
    (p.tensors.map fun t => 1 + (t.ranks.filter p.rules.isStatic).length +
      3 * ((t.ranks.filter p.rules.isDynamic).map fun x => (p.rules.steps x).length).sum).sum := by
  have htensor : ∀ t ∈ p.tensors, (tensorStatements p t (start t) (after t)).length =
      1 + (t.ranks.filter p.rules.isStatic).length +
        3 * ((t.ranks.filter p.rules.isDynamic).map fun x => (p.rules.steps x).length).sum := by
    intro t ht
    rw [← length_dynamicSources hp ht]
    simp only [tensorStatements, List.length_append, List.length_cons, List.length_map]
    omega
  rw [statements, List.length_append, List.length_append, List.length_map, List.length_flatMap,
    List.map_congr_left htensor, Nat.add_assoc]
  rfl

end

/-- **The statements of a validated program.**  What is left of its graph after pruning is one node for each of them:
the points output, graphics, body and footer, a loop for each rank of the loop order, and for each tensor its root
taken at the start of the walk, a partitioning for each declared rank with a static rule, and for each step of a
dynamic rule a partitioning, the tensor made anew, and its root taken with the ranks that it has right after that
split.  All of these are different. -/
theorem prune_lists_statements (hp : p.Validated) :
    ∃ (raw : Graph Node) (start : Tensor → Cursor) (after : Tensor → String → Cursor), p.graph = .ok raw ∧
      (∀ t ∈ p.tensors, Opens p t (start t) ∧
        ∀ x d, (∃ c, Meets p t x c d) ↔ x ∈ dynamicSources p t ∧ d = after t x) ∧
      (statements p start after).Nodup ∧ (Flow.prune raw).2.nodes.Perm (statements p start after) ∧
      (Flow.prune raw).2.nodeCount = 4 + p.loops.length +
        (p.tensors.map fun t => 1 + (t.ranks.filter p.rules.isStatic).length +
          3 * ((t.ranks.filter p.rules.isDynamic).map fun x => (p.rules.steps x).length).sum).sum := by
  have hn := hp.named
  obtain ⟨raw, hraw, -⟩ := hp.consistent.graph_total
  have hw := Program.wellFormed_of_graph hraw
  have hcourse : ∀ t ∈ p.tensors, ∃ start after, Tracks p t start after := fun t ht => exists_tracks hn ht
  have : Nonempty Cursor := ⟨p.cursor p.outputTensor⟩
  choose! start after htracks using hcourse
  have hnodup := nodup_statements hn htracks
  have hperm : (Flow.prune raw).2.nodes.Perm (statements p start after) := by
    have hpw : (Flow.prune raw).2.WellFormed := hw.contract _
    rw [List.perm_ext_iff_of_nodup hpw.nodup_nodes hnodup]
    intro n
    rw [mem_statements htracks, ← statement_iff hn hraw, Flow.prune, hw.nodes_contract, List.mem_filter,
      Bool.not_eq_true']
  refine ⟨raw, start, after, hraw, fun t ht => ⟨(htracks t ht).opens, (htracks t ht).meets⟩, hnodup, hperm, ?_⟩
  rw [Graph.nodeCount, hperm.length_eq, length_statements hp.consistent]

/-- One tensor leads another in the two steps that split a rank inside the loops; its other rank is split before. -/
def tiled : Program :=
  ⟨[⟨"A", some ["K", "M"]⟩, ⟨"B", some ["K"]⟩], "B", ["K2", "M1", "K1", "M0", "K0"],
    ⟨[⟨"K", [⟨.uniformOccupancy, 6, "A"⟩, ⟨.uniformOccupancy, 3, "A"⟩]⟩, ⟨"M", [⟨.uniformShape, 4, ""⟩]⟩]⟩⟩

theorem validated_tiled : tiled.Validated := by
  have h : tiled.problem? = none ∧ RuleSet.empty.addAll tiled.rules.rules = .ok tiled.rules := by decide +kernel
  exact .of_problem? h.1 h.2

/-- It has four points, five loops, eight statements for the tensor with both ranks and seven for the other. -/
theorem prune_lists_statements_tiled :
    tiled.Validated ∧ ∃ raw, tiled.graph = .ok raw ∧ (Flow.prune raw).2.nodeCount = 24 := by
  obtain ⟨raw, start, after, hraw, -, -, -, hcount⟩ := prune_lists_statements validated_tiled
  exact ⟨validated_tiled, raw, hraw, hcount.trans (by decide +kernel)⟩

end Wiring
end LoopNest
