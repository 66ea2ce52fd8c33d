import LoopNest.Proofs.Flow.Outline
/-!
# Proofs.Flow.Cycles — which cycles a plan leaves unseen

A plan is made from the pruned graph, and pruning forgets a path from a statement through bookkeeping back to that
statement.  So the graph as built may have a cycle although there is a plan.  Such a cycle stays at one statement, and
the kinds of the nodes on both sides of an edge (`linkedKinds`) leave one shape for it: a loop that is entered at a
fiber and comes back to a fiber of the same name (`Returns`).  Where fibers are told apart by their names there is none
(`graph_cycles`), but the checks on a program do not ask for that (`graph_scan_ref`).
-/
namespace LoopNest
namespace Wiring

variable {p : Program} {t : Tensor} {x y r f : String} {n m b : Node} {raw : Graph Node} {plan : Plan}

/-- **The loop over `x` comes back to a fiber at which it is entered**, named `f`. -/
def Returns (p : Program) (x f : String) : Prop :=
  (∃ t ∈ p.tensors, ∃ c d, Enters p t x c d ∧ c.fiber = f) ∧ ∃ t ∈ p.tensors, ∃ c d, Enters p t x c d ∧ d.fiber = f

/-! ## The nodes on both sides of an edge -/

/-- The kinds of the nodes on both sides of an edge. -/
def linkedKinds : List (Kind × Kind) :=
  [(.other, .other), (.other, .loop), (.loop, .loop), (.loop, .other), (.other, .tensor), (.tensor, .rank),
   (.tensor, .swizzle), (.rank, .part), (.rank, .swizzle), (.part, .rank), (.part, .other), (.fiber, .part),
   (.fiber, .fromFiber), (.fiber, .loop), (.fiber, .other), (.fromFiber, .part), (.swizzle, .fiber), (.loop, .fiber)]

theorem Depends.linked (hd : Depends p t n m) : (n.kind, m.kind) ∈ linkedKinds := by
  cases hd with
  | rank _ hd =>
    cases hd with
    | split _ _ _ hd => cases hd <;> simp [linkedKinds, Node.kind, Node.ofPart]
    | _ => simp [linkedKinds, Node.kind, Node.ofPart, graphics]
  | _ => simp [linkedKinds, Node.kind, Node.ofPart, Node.ofSwizzle, body]

theorem Depends.kind_ne_other (hd : Depends p t n m) : n.kind ≠ .other := by
  cases hd with
  | rank _ hd =>
    cases hd with
    | split _ _ _ hd => cases hd <;> simp [Node.kind, Node.ofPart]
    | _ => simp [Node.kind, Node.ofPart]
  | _ => simp [Node.kind, Node.ofSwizzle]

theorem kind_of_mem_skeleton {e : Dependency} (he : e ∈ skeleton p) :
    (e.1.kind = .other ∨ e.1.kind = .loop) ∧ (e.2.kind = .other ∨ e.2.kind = .loop) := by
  have hkind : ∀ k ∈ output :: (graphics :: startLoop :: p.loops.map Node.loop ++ [body, footer]),
      k.kind = .other ∨ k.kind = .loop := by
    intro k hk
    simp only [List.cons_append, List.mem_cons, List.mem_append, List.mem_map, List.not_mem_nil, or_false] at hk
    rcases hk with rfl | rfl | rfl | ⟨x, -, rfl⟩ | rfl | rfl <;> first | exact .inl rfl | exact .inr rfl
  obtain ⟨h1, h2⟩ := mem_of_mem_chain e he
  exact ⟨hkind _ h1, hkind _ h2⟩

theorem Depends.enters (hd : Depends p t (.fiber f) (.loop x)) : ∃ c d, Enters p t x c d ∧ c.fiber = f := by
  cases hd with
  | enter hx => exact ⟨_, _, hx, rfl⟩
  | rank _ hd =>
    cases hd with
    | split _ _ _ hd => cases hd

theorem Depends.leaves (hd : Depends p t (.loop x) (.fiber f)) : ∃ c d, Enters p t x c d ∧ d.fiber = f := by
  cases hd with
  | next hx => exact ⟨_, _, hx, rfl⟩
  | rank _ hd =>
    cases hd with
    | split _ _ _ hd => cases hd

/-- **A rank comes from its tensor, or from the partitioning of another rank.** -/
theorem Depends.of_made (hp : p.Named) (ht : t ∈ p.tensors) (hd : Depends p t n (.rank r y)) :
    n.kind = .tensor ∨ ∃ x, n = .ofPart r [x] ∧ Plain x ∧ x ≠ y := by
  cases hd with
  | @rank x _ _ hx hd =>
    cases hd with
    | declared => exact .inl rfl
    | final hst hf =>
      obtain ⟨s, hs, -⟩ := exists_split_of_isStatic hst
      rw [RuleSet.finals, hs] at hf
      refine .inr ⟨x, rfl, hp.plain_declared t ht x hx, fun heq => ?_⟩
      rw [heq, hp.coherent.split?_of_mem_finals hs hf] at hs
      cases hs
    | @split z s _ _ hs _ hrank hd =>
      have hz := (Program.Obtainable.of_rule hp.toConsistent hs (hrank ▸ hx)).plain hp ht
      cases hd with
      | made hy =>
        refine .inr ⟨z, rfl, hz, fun heq => ?_⟩
        -- What a split makes has fewer splits ahead.
        have hone := Program.pendingSplits_split hp.coherent hs
        rcases Split.mem_pair.1 hy with hy | hy <;> rw [← hy, ← heq] at hone <;> omega

/-- **A rank goes into a root that is taken, or into its own partitioning.** -/
theorem Depends.of_rank (hp : p.Named) (ht : t ∈ p.tensors) (hd : Depends p t (.rank r y) m) :
    m.kind = .swizzle ∨ m = .ofPart r [y] ∧ Plain y := by
  cases hd with
  | rank hx hd =>
    cases hd with
    | source => exact .inr ⟨rfl, hp.plain_declared t ht _ hx⟩
    | split hs _ hrank hd =>
      cases hd with
      | source => exact .inr ⟨rfl, (Program.Obtainable.of_rule hp.toConsistent hs (hrank ▸ hx)).plain hp ht⟩
  | rankTaken => exact .inl rfl

section
variable (hp : p.Named) (hraw : p.graph = .ok raw)
include hp hraw

theorem linked_of_edge (he : raw.Edge n m) : (n.kind, m.kind) ∈ linkedKinds := by
  rcases (edge_iff hp hraw).1 he with he | he | ⟨t, -, hd⟩
  · obtain ⟨h1, h2⟩ := kind_of_mem_skeleton he
    rcases h1 with h1 | h1 <;> rcases h2 with h2 | h2 <;> rw [h1, h2] <;> decide
  · cases he
    simp [linkedKinds, Node.kind, output]
  · exact hd.linked

/-- An edge at a fiber or a rank comes from a tensor. -/
theorem exists_depends (he : raw.Edge n m) (h : n.kind = .fiber ∨ m.kind = .fiber ∨ n.kind = .rank ∨ m.kind = .rank) :
    ∃ t ∈ p.tensors, Depends p t n m := by
  rcases (edge_iff hp hraw).1 he with he | he | hd
  · obtain ⟨h1, h2⟩ := kind_of_mem_skeleton he
    rcases h1 with h1 | h1 <;> rcases h2 with h2 | h2 <;> simp [h1, h2] at h
  · cases he
    simp [Node.kind, output] at h
  · exact hd

theorem returns_iff : Returns p x f ↔ raw.Edge (.fiber f) (.loop x) ∧ raw.Edge (.loop x) (.fiber f) := by
  refine and_congr ⟨fun ⟨t, ht, c, d, hx, hf⟩ => ?_, fun he => ?_⟩ ⟨fun ⟨t, ht, c, d, hx, hf⟩ => ?_, fun he => ?_⟩
  · exact hf ▸ edge_of_depends hp hraw ht (.enter hx)
  · obtain ⟨t, ht, hd⟩ := exists_depends hp hraw he (by simp [Node.kind])
    exact ⟨t, ht, hd.enters⟩
  · exact hf ▸ edge_of_depends hp hraw ht (.next hx)
  · obtain ⟨t, ht, hd⟩ := exists_depends hp hraw he (by simp [Node.kind])
    exact ⟨t, ht, hd.leaves⟩

theorem eq_of_edge_startLoop (he : raw.Edge n startLoop) : n = graphics := by
  rcases (edge_iff hp hraw).1 he with he | he | ⟨t, -, hd⟩
  · rcases mem_skeleton.1 he with he | he | he
    · exact absurd (Prod.mk.inj he).2 (by decide)
    · exact (Prod.mk.inj he).1
    · have hmem := end_mem_of_mem_chain _ he
      simp [startLoop, body, footer, Anchor.startLoop, Anchor.body, Anchor.footer] at hmem
  · cases he
  · exact absurd rfl hd.target_ne.2.1

theorem not_edge_startLoop_graphics : ¬ raw.Edge startLoop graphics := by
  intro he
  rcases (edge_iff hp hraw).1 he with he | he | ⟨t, -, hd⟩
  · rcases mem_skeleton.1 he with he | he | he
    · exact absurd (Prod.mk.inj he).1 (by decide)
    · exact absurd (Prod.mk.inj he).1 (by decide)
    · have hmem := end_mem_of_mem_chain _ he
      simp [graphics, body, footer, Anchor.graphics, Anchor.body, Anchor.footer] at hmem
  · exact absurd (Prod.mk.inj he).1 (by decide)
  · exact hd.kind_ne_other rfl

/-- **Bookkeeping is joined to bookkeeping only where a tensor has a rank.** -/
theorem kind_of_bookkeeping (he : raw.Edge n m) (hn : n.isBookkeeping = true) (hm : m.isBookkeeping = true) :
    n.kind = .tensor := by
  have hlinked := linked_of_edge hp hraw he
  cases m with
  | other a =>
    have ha : a = .startLoop := of_decide_eq_true hm
    rw [ha] at he
    rw [eq_of_edge_startLoop hp hraw he] at hn
    cases hn
  | tensor r =>
    rw [eq_of_edge_tensor hp hraw he] at hn
    cases hn
  | rank r y => cases n <;> simp_all [linkedKinds, Node.kind, Node.isBookkeeping]
  | fiber f => cases n <;> simp_all [linkedKinds, Node.kind, Node.isBookkeeping]
  | _ => cases hm

/-- **A statement that bookkeeping joins to itself** is a loop, and what joins it is a fiber. -/
theorem returns_of_two_cycle (he : raw.Edge n b) (he' : raw.Edge b n) (hn : n.isBookkeeping = false)
    (hb : b.isBookkeeping = true) : ∃ x f, n = .loop x ∧ b = .fiber f ∧ Returns p x f := by
  have hlinked := linked_of_edge hp hraw he
  have hlinked' := linked_of_edge hp hraw he'
  cases b with
  | tensor r =>
    rw [eq_of_edge_tensor hp hraw he] at he'
    exact absurd he' (not_edge_output hp hraw)
  | rank r y =>
    obtain ⟨t, ht, hd⟩ := exists_depends hp hraw he (by simp [Node.kind])
    obtain ⟨u, hu, hd'⟩ := exists_depends hp hraw he' (by simp [Node.kind])
    rcases hd.of_made hp ht with hkind | ⟨x, rfl, hx, hne⟩
    · cases n <;> cases hkind
      cases hn
    · rcases hd'.of_rank hp hu with hkind | ⟨heq, hy⟩
      · cases hkind
      · exact absurd (ofPart_inj hx hy heq) hne
  | fiber f =>
    cases n with
    | loop x => exact ⟨x, f, rfl, rfl, (returns_iff hp hraw).2 ⟨he', he⟩⟩
    | _ => simp [linkedKinds, Node.kind] at hlinked hlinked'
  | other a =>
    have ha : a = .startLoop := of_decide_eq_true hb
    rw [ha] at he he'
    rw [eq_of_edge_startLoop hp hraw he] at he'
    exact absurd he' (not_edge_startLoop_graphics hp hraw)
  | _ => cases hb

end

/-! ## Cycles -/

section
variable (hp : p.Validated) (hraw : p.graph = .ok raw) (hplan : p.plan = .ok plan)
include hp hraw hplan

/-- **A cycle through bookkeeping turns at one loop.** -/
theorem returns_of_turn (he : raw.Edge n b) (he' : raw.Edge b m) (hback : Relation.ReflTransGen raw.Edge m n)
    (hb : b.isBookkeeping = true) : ∃ x f, n = .loop x ∧ b = .fiber f ∧ Returns p x f := by
  have hn := hp.named
  have hpath : raw.Path n m := he.path.trans he'.path
  have htensor : ∀ {k}, raw.Path k k → k.kind ≠ .tensor := by
    intro k hk hkind
    cases k <;> cases hkind
    cases path_tensor hn hraw hk
  have hnn : n.isBookkeeping = false := by
    rw [← Bool.not_eq_true]
    exact fun h => htensor (.trans_left hpath hback) (kind_of_bookkeeping hn hraw he h hb)
  have hmm : m.isBookkeeping = false := by
    rw [← Bool.not_eq_true]
    exact fun h => htensor (.trans_left he'.path (hback.tail he)) (kind_of_bookkeeping hn hraw he' hb h)
  have heq : n = m := by
    rcases Relation.reflTransGen_iff_eq_or_transGen.1 hback with heq | hback
    · exact heq
    · exact hp.consistent.eq_of_paths hplan hraw hnn hmm hpath hback
  subst heq
  exact returns_of_two_cycle hn hraw he he' hnn hb

theorem returns_of_cycle (h : raw.Path n n) : ∃ x f, (n = .loop x ∨ n = .fiber f) ∧ Returns p x f := by
  obtain ⟨m, he, hback⟩ := Relation.TransGen.head'_iff.1 h
  cases hn : n.isBookkeeping with
  | true =>
    obtain ⟨k, hreach, he'⟩ := Relation.TransGen.tail'_iff.1 h
    obtain ⟨x, f, -, hf, hx⟩ := returns_of_turn hp hraw hplan he' he (hback.trans hreach) hn
    exact ⟨x, f, .inr hf, hx⟩
  | false =>
    have hmn : m ≠ n := by
      rintro rfl
      obtain ⟨raw', hraw', hirr, -⟩ := hp.consistent.graph_total
      rw [hraw] at hraw'
      cases hraw'
      exact hirr m he
    have hpath := (Relation.reflTransGen_iff_eq_or_transGen.1 hback).resolve_left (Ne.symm hmn)
    have hm : m.isBookkeeping = true := by
      rw [← Bool.not_eq_false]
      exact fun hm => hmn (hp.consistent.eq_of_paths hplan hraw hm hn hpath he.path)
    obtain ⟨k, he', hreach⟩ := Relation.TransGen.head'_iff.1 hpath
    obtain ⟨x, f, hx, -, hret⟩ := returns_of_turn hp hraw hplan he he' hreach hm
    exact ⟨x, f, .inl hx, hret⟩

end

/-- **Where fibers are told apart by their names no loop comes back to a fiber at which it is entered.** -/
theorem not_returns (hp : p.Named) (h : Set.InjOn p.fiberAt p.states) : ¬ Returns p x f := by
  rintro ⟨⟨t, ht, c, d, henter, hf⟩, u, hu, b, e, hleave, hf'⟩
  obtain ⟨rest, hpend, -⟩ := Cursor.pop?_eq_some.1 henter.2.1
  have hpeek : c.peek? = some x := by rw [Cursor.peek?, hpend]; rfl
  have htrack := henter.1.onTrack hp ht
  have htrack' := (hleave.1.move hleave.move).onTrack hp hu
  have hstate : ∀ {t c}, t ∈ p.tensors → OnTrack p t c → (t, c.peek?) ∈ p.states :=
    fun ht hc => ⟨ht, fun y hy => hc.obtained y (List.mem_of_head? hy)⟩
  rw [htrack.fiber_eq] at hf
  rw [htrack'.fiber_eq] at hf'
  have heq := h (hstate ht htrack) (hstate hu htrack') (hf.trans hf'.symm)
  -- So the other walk has entered the loop, and has it ahead.
  have hahead : x ∈ e.pending := List.mem_of_head? ((Prod.mk.inj heq).2.symm.trans hpeek)
  have hconsumed : x ∈ e.consumed := by
    obtain ⟨rest', -, rfl⟩ := Cursor.pop?_eq_some.1 hleave.2.1
    exact List.mem_append_right _ List.mem_cons_self
  have hfor := Program.loopsFor_of_unsplit (hp.loops_unsplit x (hleave.mem_loops hp hu))
  refine (List.nodup_append.1 (htrack'.nodup hp hu)).2.2 x hconsumed x (List.mem_flatMap.2 ⟨x, hahead, ?_⟩) rfl
  rw [hfor]
  exact List.mem_singleton_self x

/-- **The cycles that a plan leaves unseen.**  If a validated program has a plan, the nodes on cycles of its graph as
built are the loops that come back to a fiber at which they are entered, and these fibers.  So that graph has no cycle
exactly if there is no such loop, and there is none if fibers are told apart by their names. -/
theorem graph_cycles (hp : p.Validated) (hplan : p.plan = .ok plan) : ∃ raw, p.graph = .ok raw ∧
    (∀ n, raw.reaches n n = true ↔ ∃ x f, (n = .loop x ∨ n = .fiber f) ∧ Returns p x f) ∧
    (raw.hasCycle = false ↔ ∀ x f, ¬ Returns p x f) ∧
    (Set.InjOn p.fiberAt p.states → raw.hasCycle = false) := by
  obtain ⟨raw, hraw, -⟩ := hp.consistent.graph_total
  have hw := Program.wellFormed_of_graph hraw
  have hcycle : ∀ n, raw.Path n n ↔ ∃ x f, (n = .loop x ∨ n = .fiber f) ∧ Returns p x f := by
    refine fun n => ⟨returns_of_cycle hp hraw hplan, fun ⟨x, f, hn, hret⟩ => ?_⟩
    obtain ⟨henter, hleave⟩ := (returns_iff hp.named hraw).1 hret
    rcases hn with rfl | rfl
    · exact hleave.path.trans henter.path
    · exact henter.path.trans hleave.path
  have hnone : raw.hasCycle = false ↔ ∀ x f, ¬ Returns p x f := by
    rw [hw.hasCycle_eq_false_iff]
    refine ⟨fun hacyc x f hret => hacyc (.loop x) ((hcycle _).2 ⟨x, f, .inl rfl, hret⟩), fun hret n hn => ?_⟩
    obtain ⟨x, f, -, h⟩ := (hcycle n).1 hn
    exact hret x f h
  refine ⟨raw, hraw, fun n => ?_, hnone, fun hinj => hnone.2 fun x f => not_returns hp.named hinj⟩
  rw [Graph.reaches_iff, hcycle]

/-- The program with two steps has a graph without cycles. -/
theorem graph_cycles_twoSteps : twoSteps.Validated ∧ ∃ raw plan, twoSteps.graph = .ok raw ∧
    twoSteps.plan = .ok plan ∧ raw.hasCycle = false ∧ ∀ x f, ¬ Returns twoSteps x f := by
  obtain ⟨plan, hplan⟩ := exists_plan_twoSteps
  obtain ⟨raw, hraw, -, hiff, hinj⟩ := graph_cycles validated_twoSteps hplan
  have hacyc := hinj wellOrdered_twoSteps.distinct
  exact ⟨validated_twoSteps, raw, plan, hraw, hplan, hacyc, hiff.1 hacyc⟩

/-- A program that writes a tensor with one rank. -/
def scan (rank : String) : Program := ⟨[⟨"A", some [rank]⟩], "A", [rank], RuleSet.empty⟩

/-- The dependencies of such a program, where `start` is the fiber of the rank. -/
def scanEdges (rank start : String) : List Dependency :=
  [(output, graphics), (graphics, startLoop), (startLoop, .loop rank), (.loop rank, body), (body, footer),
   (output, .tensor "A"), (.tensor "A", .rank "A" rank), (.tensor "A", .ofSwizzle "A" [rank]),
   (.ofSwizzle "A" [rank], .fiber start), (.rank "A" rank, .ofSwizzle "A" [rank]), (.fiber start, .loop rank),
   (.loop rank, .fiber "a_ref"), (.fiber "a_ref", body)]

/-- **With its rank named `REF` it has a plan, but a graph with a cycle**: the fiber at which its loop is entered has
the name of the reference at which it ends. -/
theorem graph_scan_ref : (scan "REF").Validated ∧ ∃ raw plan, (scan "REF").graph = .ok raw ∧
    (scan "REF").plan = .ok plan ∧ raw.hasCycle = true := by
  have hprob : (scan "REF").problem? = none := by decide +kernel
  have hv : (scan "REF").Validated := .of_problem? hprob rfl
  have hedges : edges (scan "REF") = .ok (scanEdges "REF" "a_ref") := by cbv
  have hraw : (scan "REF").graph = .ok (Graph.empty.addEdges (scanEdges "REF" "a_ref")) := by
    rw [Program.graph, hedges]
    rfl
  have hw := Program.wellFormed_of_graph hraw
  have horder : (Flow.prune (Graph.empty.addEdges (scanEdges "REF" "a_ref"))).2.isTopologicalOrder
      [output, graphics, .ofSwizzle "A" ["REF"], .loop "REF", body, footer] = true := by decide +kernel
  have hacyc := ((hw.contract _).isTopologicalOrder_iff.1 horder).acyclic (hw.contract _)
  obtain ⟨plan, hplan⟩ := hv.consistent.plan_of_acyclic hraw hacyc
  have hedge : ∀ {a b}, (a, b) ∈ scanEdges "REF" "a_ref" →
      (Graph.empty.addEdges (scanEdges "REF" "a_ref")).Path a b := fun h => (Program.edge_graph.2 h).path
  have hcycle : (Graph.empty.addEdges (scanEdges "REF" "a_ref")).Path (.loop "REF") (.loop "REF") :=
    (hedge (b := .fiber "a_ref") (by simp [scanEdges])).trans (hedge (by simp [scanEdges]))
  refine ⟨hv, _, plan, hraw, hplan, ?_⟩
  rw [← Bool.not_eq_false, hw.hasCycle_eq_false_iff]
  exact fun h => h _ hcycle

end Wiring
end LoopNest
