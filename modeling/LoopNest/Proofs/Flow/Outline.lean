import LoopNest.Proofs.Flow.Inventory
/-!
# Proofs.Flow.Outline — how every plan begins and ends

A plan begins with the output: it is the oldest node, and nothing leads to it.  A plan ends with the innermost loop, the
body and the footer, and nothing checks that.  It holds since every other statement reaches a loop, and so the innermost
one (`Statement.reaches_loop`): if it came after the innermost loop, the two would wait for each other, and there would
be no plan.  Only the root of a tensor without pending ranks reaches no loop, but no loop leads to it
(`path_swizzle_nil`).
-/
namespace LoopNest

namespace Graph

variable {α : Type} [DecidableEq α] {g : Graph α} {n m : α}

theorem head?_addNode (h : g.nodes.head? = some n) : (g.addNode m).nodes.head? = some n := by
  unfold addNode
  split
  · exact h
  · rw [List.head?_append, h]
    rfl

theorem head?_addEdges : ∀ (es : List (α × α)) {g : Graph α}, g.nodes.head? = some n →
    (g.addEdges es).nodes.head? = some n
  | [], _, h => h
  | e :: es, g, h => by
    refine head?_addEdges es (g := g.addEdge e.1 e.2) ?_
    unfold addEdge
    dsimp only
    split <;> exact head?_addNode (head?_addNode h)

/-- **The oldest node is placed first** if nothing leads to it. -/
theorem head?_placing (ahead : α → α → Bool) (hn : g.nodes.head? = some n) (hroot : ∀ m, ¬ g.Edge m n) :
    (g.placing ahead).head? = some n := by
  obtain ⟨rest, hnodes⟩ := List.head?_eq_some_iff.1 hn
  have hparents : g.parents n = [] := List.eq_nil_iff_forall_not_mem.2 fun m hm => hroot m (mem_parents.1 hm)
  have hsources : g.sources = n :: rest.filter (fun m => (g.parents m).isEmpty) := by
    rw [sources, hnodes, List.filter_cons_of_pos (by rw [hparents]; rfl)]
  rw [placing, worklist, hsources, workOff, List.head?_cons]

theorem head?_topologicalOrder? {o : List α} (hn : g.nodes.head? = some n) (hroot : ∀ m, ¬ g.Edge m n)
    (h : g.topologicalOrder? = some o) : o.head? = some n := by
  rw [topologicalOrder?] at h
  split at h
  · cases h
    exact head?_placing g.older hn hroot
  · cases h

end Graph

namespace Flow

variable {g : Graph Node} {n : Node} {o : List Node}

theorem depth_eq_zero (hroot : ∀ m, ¬ g.Edge m n) : depth (nests g) n = 0 := by
  refine List.countP_eq_zero.2 fun a ha => ?_
  rw [decide_eq_true_iff, mem_inside_iff ha]
  intro hpath
  cases hpath with
  | single he => exact hroot _ he
  | tail _ he => exact hroot _ he

section
variable (hn : g.nodes.head? = some n) (hloop : n.isLoop = false) (hroot : ∀ m, ¬ g.Edge m n)
include hn hloop hroot

theorem head?_layer (h : layer g (nests g) 0 = .ok o) : o.head? = some n := by
  rw [layer] at h
  split at h
  · rename_i order horder
    cases h
    refine Graph.head?_topologicalOrder? ?_ (fun m he => hroot m (Graph.edge_induced.1 he).1) horder
    obtain ⟨rest, hnodes⟩ := List.head?_eq_some_iff.1 hn
    rw [Graph.induced, hnodes, List.filter_cons_of_pos (by simp [hloop, depth_eq_zero hroot])]
    rfl
  · cases h

theorem head?_layersFrom {ns : List Nest} (h : layersFrom g (nests g) 0 ns = .ok o) : o.head? = some n := by
  cases ns with
  | nil => exact head?_layer hn hloop hroot h
  | cons a rest =>
    rw [layersFrom] at h
    split at h
    · cases h
    rename_i here hhere
    cases hinner : layersFrom g (nests g) (0 + 1) rest with
    | error e => rw [hinner] at h; cases h
    | ok inner =>
      rw [hinner] at h
      cases h
      rw [List.head?_append, head?_layer hn hloop hroot hhere]
      rfl

/-- **A schedule begins with the oldest node** if that is no loop and nothing leads to it. -/
theorem head?_schedule (h : schedule g = .ok o) : o.head? = some n := by
  rw [schedule] at h
  split at h
  · cases h
  dsimp only at h
  split at h
  · cases h
  split at h
  · cases h
  rename_i order horder
  split at h <;> cases h
  exact head?_layersFrom hn hloop hroot horder

end

end Flow

namespace Program

variable {p : Program} {plan : Plan} {raw : Graph Node}

theorem Validated.loops_ne_nil (hp : p.Validated) : p.loops ≠ [] := by
  obtain ⟨-, -, -, hloops, -⟩ := problem?_eq_none_iff.1 (problem?_of_make hp.2)
  exact hloops

/-- The output is the oldest node. -/
theorem head?_graph (h : p.graph = .ok raw) : raw.nodes.head? = some Wiring.output := by
  rw [Program.graph, Wiring.edges] at h
  cases hout : Wiring.settledOutput p with
  | error e => rw [hout] at h; cases h
  | ok out =>
    cases hes : Wiring.tensorsEdges p p.tensors with
    | error e => rw [hout, hes] at h; cases h
    | ok es =>
      rw [hout, hes] at h
      cases h
      exact Graph.head?_addEdges (g := Graph.empty.addEdge Wiring.output Wiring.graphics) _ rfl

/-- **After a loop of a plan come exactly the statements that it reaches.** -/
theorem after_iff_path (hplan : p.plan = .ok plan) (hraw : p.graph = .ok raw) {l n : Node} (hl : l ∈ plan.order)
    (hloop : l.isLoop = true) (hn : n ∈ plan.order) (hne : n ≠ l) :
    plan.order.idxOf l < plan.order.idxOf n ↔ raw.Path l n := by
  have hw := wellFormed_of_graph hraw
  have hkeep : ∀ {k}, k ∈ plan.order → k.isBookkeeping = false := fun hk => ((mem_order_iff hplan hraw).1 hk).2
  rw [(scheduled_of_plan hplan hraw).after_iff (hw.contract _) hl hloop hn]
  exact hw.path_contract _ (hkeep hl) (hkeep hn) (Ne.symm hne)

/-- **Statements of a plan that reach each other are one.** -/
theorem Consistent.eq_of_paths (hp : p.Consistent) (hplan : p.plan = .ok plan) (hraw : p.graph = .ok raw) {a b : Node}
    (ha : a.isBookkeeping = false) (hb : b.isBookkeeping = false) (hab : raw.Path a b) (hba : raw.Path b a) :
    a = b := by
  by_contra hne
  have hacyc := (topological_of_plan hplan hraw).acyclic ((wellFormed_of_graph hraw).contract _)
  have hnot := (hp.acyclic_prune_iff hraw).1 hacyc a b ha hb hne (Graph.reaches_iff.2 hab)
  rw [Graph.reaches_iff.2 hba] at hnot
  cases hnot

end Program

namespace Wiring

variable {p : Program} {t : Tensor} {x r : String} {c : Cursor} {n m : Node} {raw : Graph Node}

/-! ## What leads nowhere but to the start -/

theorem end_mem_of_mem_chain : ∀ {n : Node} {l : List Node}, ∀ e ∈ chain n l, e.2 ∈ l
  | _, [], e, he => by cases he
  | n, m :: l, e, he => by
    rcases List.mem_cons.1 he with rfl | he
    · exact List.mem_cons_self
    · exact List.mem_cons_of_mem _ (end_mem_of_mem_chain e he)

theorem mem_skeleton {e : Dependency} : e ∈ skeleton p ↔ e = (output, graphics) ∨ e = (graphics, startLoop) ∨
    e ∈ chain startLoop (p.loops.map Node.loop ++ [body, footer]) := by
  simp [skeleton, chain]

theorem Depends.target_ne (hd : Depends p t n m) : m ≠ output ∧ m ≠ startLoop ∧ ∀ r, m ≠ .tensor r := by
  cases hd with
  | rank _ hd =>
    cases hd with
    | graphics _ => exact ⟨by decide, by decide, by simp [graphics]⟩
    | split _ _ _ hd => cases hd <;> simp [output, startLoop, Node.ofPart]
    | _ => simp [output, startLoop, Node.ofPart]
  | finish _ _ => exact ⟨by decide, by decide, by simp [body]⟩
  | _ => simp [output, startLoop, Node.ofPart, Node.ofSwizzle]

section
variable (hp : p.Named) (hraw : p.graph = .ok raw)
include hp hraw

theorem not_edge_output : ¬ raw.Edge n output := by
  intro he
  rcases (edge_iff hp hraw).1 he with he | he | ⟨t, -, hd⟩
  · have hmem := end_mem_of_mem_chain _ he
    simp [output, graphics, startLoop, body, footer, Anchor.output, Anchor.graphics, Anchor.startLoop, Anchor.body,
      Anchor.footer] at hmem
  · cases he
  · exact hd.target_ne.1 rfl

theorem eq_of_edge_tensor (he : raw.Edge n (.tensor r)) : n = output := by
  rcases (edge_iff hp hraw).1 he with he | he | ⟨t, -, hd⟩
  · have hmem := end_mem_of_mem_chain _ he
    simp [graphics, startLoop, body, footer] at hmem
  · exact (Prod.mk.inj he).1
  · exact absurd rfl (hd.target_ne.2.2 r)

theorem eq_of_edge_swizzle_nil (he : raw.Edge n (.ofSwizzle r [])) : n = .tensor r := by
  rcases (edge_iff hp hraw).1 he with he | he | ⟨t, ht, hd⟩
  · have hmem := end_mem_of_mem_chain _ he
    simp [Node.ofSwizzle, graphics, startLoop, body, footer] at hmem
  · cases he
  · generalize hm : Node.ofSwizzle r [] = m at hd
    cases hd with
    | rank _ hd =>
      cases hd with
      | split _ _ _ hd => cases hd <;> cases hm
      | _ => cases hm
    | tensorTaken _ => rw [(Node.swizzle.inj hm).1]
    | rankTaken hc hx =>
      -- The ranks of the tuple are plain, so it keeps them, and there is one.
      have hplain := RankTuple.ofList_of_plain fun y hy => ((hc.stands.onTrack hp ht).obtained y hy).plain hp ht
      have hnil := (Node.swizzle.inj hm).2
      rw [hplain] at hnil
      rw [← RankTuple.mk.inj hnil] at hx
      cases hx
    | _ => cases hm

theorem path_tensor (h : raw.Path n (.tensor r)) : n = output := by
  cases h with
  | single he => exact eq_of_edge_tensor hp hraw he
  | tail h he =>
    rw [eq_of_edge_tensor hp hraw he] at h
    cases h with
    | single he => exact absurd he (not_edge_output hp hraw)
    | tail _ he => exact absurd he (not_edge_output hp hraw)

/-- **Only the tensor itself and the output lead to a root that is taken without pending ranks.** -/
theorem path_swizzle_nil (h : raw.Path n (.ofSwizzle r [])) : n = output ∨ n = .tensor r := by
  cases h with
  | single he => exact .inr (eq_of_edge_swizzle_nil hp hraw he)
  | tail h he =>
    rw [eq_of_edge_swizzle_nil hp hraw he] at h
    exact .inl (path_tensor hp hraw h)

/-! ## What leads to a loop -/

theorem pairwise_path_skeleton :
    (output :: (graphics :: startLoop :: p.loops.map Node.loop ++ [body, footer])).Pairwise raw.Path :=
  pairwise_path_of_chain fun _ he => (edge_iff hp hraw).2 (.inl he)

theorem path_graphics (hx : x ∈ p.loops) : raw.Path graphics (.loop x) := by
  have hall := (List.pairwise_cons.1 (pairwise_path_skeleton hp hraw)).2
  exact (List.pairwise_cons.1 hall).1 _ (by simp [hx])

/-- **Where ranks are pending a walk comes to a loop.** -/
theorem Stands.reaches_loop (ht : t ∈ p.tensors) (hc : Stands p t c) (hne : c.pending ≠ []) :
    ∃ x ∈ p.loops, raw.Path (.fiber c.fiber) (.loop x) := by
  obtain ⟨es, d, hm⟩ := (hc.onTrack hp ht).exists_move hp.toConsistent ht hne
  rcases hc.enters_or_meets hm with ⟨x, hx⟩ | ⟨x, hx⟩
  · exact ⟨x, hx.mem_loops hp ht, (edge_of_depends hp hraw ht (.enter hx)).path⟩
  · obtain ⟨s, rest, hs, -, -, hperm, -⟩ := hx.exists_split hp ht
    have hun := Program.unsplit_outer hp.coherent hs
    have hd := hc.move hm
    have hout : s.outer ∈ d.pending := hperm.mem_iff.2 (List.mem_append_left _ (Split.mem_pair.2 (.inl rfl)))
    obtain ⟨hpath, henter⟩ := hd.reaches_pending hp hraw ht hout (by rw [RuleSet.isPartitioned, hun]; rfl)
    refine ⟨s.outer, ((hd.onTrack hp ht).covered hp.toConsistent ht _ hout).mem_loops hun, ?_⟩
    exact ((hc.path_move hp hraw ht hm).trans_left hpath).tail henter

theorem Takes.reaches_loop (ht : t ∈ p.tensors) (hc : Takes p t c) (hne : c.pending ≠ []) :
    ∃ x ∈ p.loops, raw.Path (.ofSwizzle t.root c.pending) (.loop x) := by
  obtain ⟨x, hx, hpath⟩ := hc.stands.reaches_loop hp hraw ht hne
  exact ⟨x, hx, (edge_of_depends hp hraw ht (.root hc)).path.trans hpath⟩

theorem Meets.reaches_loop {d : Cursor} (ht : t ∈ p.tensors) (h : Meets p t x c d) :
    ∃ y ∈ p.loops, raw.Path (.ofPart t.root [x]) (.loop y) := by
  obtain ⟨s, rest, -, -, -, hperm, -⟩ := h.exists_split hp ht
  have hne : d.pending ≠ [] :=
    List.ne_nil_of_mem (hperm.mem_iff.2 (List.mem_append_left _ (Split.mem_pair.2 (.inl rfl))))
  obtain ⟨y, hy, hpath⟩ := Takes.reaches_loop hp hraw ht (.inr ⟨x, c, h⟩) hne
  exact ⟨y, hy, (h.path_swizzle hp hraw ht).trans hpath⟩

/-- **Every statement reaches a loop**, but for the body, the footer and the root of a tensor without pending ranks. -/
theorem Statement.reaches_loop (h : Statement p n) (hne : p.loops ≠ []) : n ∈ [body, footer] ∨
    (∃ r, n = .ofSwizzle r []) ∨ ∃ x ∈ p.loops, Relation.ReflTransGen raw.Edge n (.loop x) := by
  have hreach : ∀ {k}, (∃ x ∈ p.loops, raw.Path k (.loop x)) →
      ∃ x ∈ p.loops, Relation.ReflTransGen raw.Edge k (.loop x) :=
    fun ⟨x, hx, hpath⟩ => ⟨x, hx, hpath.to_reflTransGen⟩
  have hmeets : ∀ {t x}, t ∈ p.tensors → x ∈ dynamicSources p t → ∃ c d, Meets p t x c d := by
    intro t x ht hx
    obtain ⟨s, hs, hdyn, hrank⟩ := (mem_dynamicSources hp.toConsistent ht).1 hx
    exact exists_meets hp ht hs hdyn hrank
  obtain ⟨y, hy⟩ := List.exists_mem_of_ne_nil _ hne
  have hgraphics := path_graphics hp hraw hy
  cases h with
  | anchor hn =>
    simp only [List.mem_cons, List.not_mem_nil, or_false] at hn
    rcases hn with rfl | rfl | rfl | rfl
    · have hfirst := (List.pairwise_cons.1 (pairwise_path_skeleton hp hraw)).1
      exact .inr (.inr (hreach ⟨y, hy, hfirst _ (by simp [hy])⟩))
    · exact .inr (.inr (hreach ⟨y, hy, hgraphics⟩))
    · exact .inl (by simp)
    · exact .inl (by simp)
  | loop hx => exact .inr (.inr ⟨_, hx, .refl⟩)
  | @taken t c ht hc =>
    by_cases hnil : c.pending = []
    · exact .inr (.inl ⟨t.root, by rw [hnil]⟩)
    · exact .inr (.inr (hreach (hc.reaches_loop hp hraw ht hnil)))
  | static ht hx hst =>
    have hpart := edge_of_depends hp hraw ht (.rank hx (.graphics hst))
    exact .inr (.inr (hreach ⟨y, hy, hpart.path.trans hgraphics⟩))
  | dynamic ht hx =>
    obtain ⟨c, d, hm⟩ := hmeets ht hx
    exact .inr (.inr (hreach (hm.reaches_loop hp hraw ht)))
  | remade ht hx =>
    obtain ⟨c, d, hm⟩ := hmeets ht hx
    obtain ⟨z, hz, hpath⟩ := hm.reaches_loop hp hraw ht
    exact .inr (.inr (hreach ⟨z, hz, (edge_of_depends hp hraw ht (.cut hm)).path.trans hpath⟩))

end

/-! ## The plan -/

theorem pairwise_path_innermost {outer : List String} (hp : p.Named) (hraw : p.graph = .ok raw)
    (hloops : p.loops = outer ++ [x]) : (outer.map Node.loop ++ [.loop x, body, footer]).Pairwise raw.Path := by
  have hlist : output :: (graphics :: startLoop :: p.loops.map Node.loop ++ [body, footer]) =
      [output, graphics, startLoop] ++ (outer.map Node.loop ++ [.loop x, body, footer]) := by
    rw [hloops]
    simp
  exact (hlist ▸ pairwise_path_skeleton hp hraw).sublist (List.sublist_append_right _ _)

/-- **Nothing but the body and the footer comes after the innermost loop.** -/
theorem Statement.of_path_innermost {plan : Plan} {outer : List String} (hp : p.Validated) (hplan : p.plan = .ok plan)
    (hraw : p.graph = .ok raw) (hloops : p.loops = outer ++ [x]) (h : Statement p n) (hpath : raw.Path (.loop x) n)
    (hne : n ≠ .loop x) : n ∈ [body, footer] := by
  rcases h.reaches_loop hp.named hraw hp.loops_ne_nil with h' | ⟨r, rfl⟩ | ⟨y, hy, hreach⟩
  · exact h'
  · rcases path_swizzle_nil hp.named hraw hpath with heq | heq <;> cases heq
  · -- The loop that it reaches is the innermost one or leads to it, so the two wait for each other.
    have hback : raw.Path n (.loop x) := by
      rw [hloops, List.mem_append, List.mem_singleton] at hy
      rcases hy with hy | rfl
      · have houter := (List.pairwise_append.1 (pairwise_path_innermost hp.named hraw hloops)).2.2
        exact .trans_right hreach (houter _ (List.mem_map_of_mem hy) _ List.mem_cons_self)
      · exact (Relation.reflTransGen_iff_eq_or_transGen.1 hreach).resolve_left (Ne.symm hne)
    exact absurd (hp.consistent.eq_of_paths hplan hraw h.isBookkeeping_eq rfl hback hpath) hne

theorem mem_drop_innermost {plan : Plan} {outer : List String} (hp : p.Validated) (hplan : p.plan = .ok plan)
    (hraw : p.graph = .ok raw) (hloops : p.loops = outer ++ [x]) :
    n ∈ plan.order.drop (plan.order.idxOf (.loop x) + 1) ↔ n ∈ [body, footer] := by
  have hnodup := (Program.topological_of_plan hplan hraw).nodup ((Program.wellFormed_of_graph hraw).contract _)
  have hmem : ∀ {n}, n ∈ plan.order ↔ Statement p n :=
    fun {n} => (Program.mem_order_iff hplan hraw).trans (statement_iff hp.named hraw)
  have hinner : .loop x ∈ plan.order := hmem.2 (.loop (by rw [hloops]; simp))
  rw [Graph.mem_drop_iff_idxOf hnodup, Nat.succ_le_iff]
  constructor
  · rintro ⟨hn, hlt⟩
    have hne : n ≠ .loop x := fun heq => by rw [heq] at hlt; exact Nat.lt_irrefl _ hlt
    have hpath := (Program.after_iff_path hplan hraw hinner rfl hn hne).1 hlt
    exact (hmem.1 hn).of_path_innermost hp hplan hraw hloops hpath hne
  · intro hend
    have hends := (List.pairwise_append.1 (pairwise_path_innermost hp.named hraw hloops)).2.1
    have hpath := (List.pairwise_cons.1 hends).1 n hend
    have hne : n ≠ .loop x := by rcases List.mem_pair.1 hend with rfl | rfl <;> simp [body, footer]
    have hn : n ∈ plan.order := hmem.2 (.anchor (by rcases List.mem_pair.1 hend with rfl | rfl <;> simp))
    exact ⟨hn, (Program.after_iff_path hplan hraw hinner rfl hn hne).2 hpath⟩

/-- **A plan ends with the innermost loop, the body and the footer.** -/
theorem order_eq_of_innermost {plan : Plan} {outer : List String} (hp : p.Validated) (hplan : p.plan = .ok plan)
    (hloops : p.loops = outer ++ [x]) :
    plan.order = plan.order.take (plan.order.idxOf (.loop x)) ++ [.loop x, body, footer] := by
  obtain ⟨raw, hraw, -⟩ := hp.consistent.graph_total
  have hnodup := (Program.topological_of_plan hplan hraw).nodup ((Program.wellFormed_of_graph hraw).contract _)
  have hinner : .loop x ∈ plan.order := by
    rw [Program.mem_order_iff hplan hraw, statement_iff hp.named hraw]
    exact .loop (by rw [hloops]; simp)
  have hsorted := Agenda.pairwise_idxOf hnodup
  have hlast : plan.order.drop (plan.order.idxOf (.loop x) + 1) = [body, footer] := by
    refine List.Perm.eq_of_pairwise (fun a b _ _ hab hba => by omega) (hsorted.sublist (List.drop_sublist _ _)) ?_ ?_
    · have hends := (List.pairwise_append.1 (pairwise_path_innermost hp.named hraw hloops)).2.1
      have hpath := (List.pairwise_cons.1 (List.pairwise_cons.1 hends).2).1 footer List.mem_cons_self
      exact hsorted.sublist (Program.before_of_path hplan hraw rfl rfl (by decide) hpath)
    · rw [List.perm_ext_iff_of_nodup (hnodup.sublist (List.drop_sublist _ _)) (by decide)]
      exact fun n => mem_drop_innermost hp hplan hraw hloops
  conv_lhs => rw [← List.take_append_drop (plan.order.idxOf (.loop x)) plan.order]
  rw [List.drop_eq_getElem_cons (List.idxOf_lt_length_of_mem hinner), List.getElem_idxOf, hlast]

/-- **The outline of every plan.**  The plan of a validated program begins with the output.  The graphics come after all
partitionings of ranks with a static rule and before all loops.  The loops are those of the program, each once and in
their order.  The plan ends with the innermost loop, the body and the footer. -/
theorem plan_outline {plan : Plan} (hp : p.Validated) (hplan : p.plan = .ok plan) : plan.order.Nodup ∧
    plan.order.head? = some output ∧
    (∀ t ∈ p.tensors, ∀ x ∈ t.ranks, p.rules.isStatic x = true →
      [.ofPart t.root [x], graphics].Sublist plan.order) ∧
    (∀ x ∈ p.loops, [graphics, .loop x].Sublist plan.order) ∧
    plan.order.filter Node.isLoop = p.loops.map .loop ∧ p.loops.Nodup ∧
    ∃ outer inner before, p.loops = outer ++ [inner] ∧ plan.order = before ++ [.loop inner, body, footer] := by
  have hn := hp.named
  obtain ⟨raw, hraw, -, -, hs⟩ := Program.plan_eq_ok_iff.1 hplan
  have hw := Program.wellFormed_of_graph hraw
  have hnodup := (Program.topological_of_plan hplan hraw).nodup (hw.contract _)
  have hbefore : ∀ {a b : Node}, a.isBookkeeping = false → b.isBookkeeping = false → a ≠ b → raw.Path a b →
      [a, b].Sublist plan.order := fun ha hb hab hpath => Program.before_of_path hplan hraw ha hb hab hpath
  refine ⟨hnodup, ?_, fun t ht x hx hst => ?_, fun x hx => ?_, hp.consistent.loops_of_plan hplan,
    hp.consistent.nodup_loops, ?_⟩
  · refine Flow.head?_schedule ?_ rfl (fun m he => ?_) hs
    · obtain ⟨rest, hnodes⟩ := List.head?_eq_some_iff.1 (Program.head?_graph hraw)
      rw [Flow.prune, hw.nodes_contract, hnodes, List.filter_cons_of_pos rfl]
      rfl
    · cases hw.path_of_path_contract _ he.path with
      | single he => exact not_edge_output hn hraw he
      | tail _ he => exact not_edge_output hn hraw he
  · have hpart := edge_of_depends hn hraw ht (.rank hx (.graphics hst))
    exact hbefore rfl rfl (by simp [Node.ofPart, graphics]) hpart.path
  · exact hbefore rfl rfl (by simp [graphics]) (path_graphics hn hraw hx)
  · obtain ⟨outer, inner, hloops⟩ : ∃ outer inner, p.loops = outer ++ [inner] :=
      ⟨_, _, (List.dropLast_append_getLast hp.loops_ne_nil).symm⟩
    exact ⟨outer, inner, _, hloops, order_eq_of_innermost hp hplan hloops⟩

/-- The plan of the program with two steps: its innermost loop is that over the innermost part. -/
theorem plan_outline_twoSteps : twoSteps.Validated ∧ ∃ plan before, twoSteps.plan = .ok plan ∧
    plan.order.head? = some output ∧ [graphics, .loop "K2"].Sublist plan.order ∧
    plan.order = before ++ [.loop "K0", body, footer] := by
  obtain ⟨plan, hplan⟩ := exists_plan_twoSteps
  obtain ⟨-, hhead, -, hgraphics, -, -, outer, inner, before, hloops, hend⟩ := plan_outline validated_twoSteps hplan
  have hinner : inner = "K0" := by
    have hlast := congrArg List.getLast? hloops
    rw [List.getLast?_append] at hlast
    exact (Option.some.inj hlast).symm
  rw [hinner] at hend
  exact ⟨validated_twoSteps, plan, before, hplan, hhead, hgraphics "K2" List.mem_cons_self, hend⟩

end Wiring

end LoopNest
