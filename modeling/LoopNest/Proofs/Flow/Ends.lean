import LoopNest.Proofs.Flow.Totality
import LoopNest.Proofs.Graph.WellFormed
/-!
# Proofs.Flow.Ends — where the graph of a program begins and ends

Nodes come into the graph as ends of dependencies, and a dependency may name a node that another routine is to supply:
a follower names a fiber of its leader, and a partitioning names the ranks that it makes.  Each of these is supplied.  A
fiber that a walk comes to is the root of a tensor or comes out of a loop (`Stands.produced`), a rank that is pending
comes from its tensor or from a partitioning (`exists_edge_rank`), and goes into a root or into a partitioning
(`Depends.consumed`).  So only the output and the other tensors have no parent, and all paths lead to the footer
(`graph_ends`).
-/
namespace LoopNest

namespace Graph

variable {α : Type} [DecidableEq α] {g : Graph α} {P : α → Bool} {n m : α}

theorem filter_nodes_addNode : (g.addNode m).nodes.filter P =
    g.nodes.filter P ++ if P m = true ∧ m ∉ g.nodes then [m] else [] := by
  rw [nodes_addNode]
  by_cases hm : m ∈ g.nodes <;> by_cases hP : P m = true <;> simp [hm, hP]

theorem filter_addNode_addNode (h : P m = true → m = n) :
    ((g.addNode m).addNode n).nodes.filter P = (g.addNode n).nodes.filter P := by
  by_cases hmn : m = n
  · subst hmn
    rw [addNode_of_mem (mem_nodes_addNode.2 (.inr rfl))]
  · have hP : P m = false := by simpa using fun hP => hmn (h hP)
    have hmem : n ∈ (g.addNode m).nodes ↔ n ∈ g.nodes := by
      rw [mem_nodes_addNode, or_iff_left (Ne.symm hmn)]
    simp [filter_nodes_addNode, hP, hmem]

/-- **Edges that touch no node of a kind but `n` add no other node of that kind.** -/
theorem filter_nodes_addEdges (es : List (α × α)) (h : ∀ e ∈ es, (P e.1 = true → e.1 = n) ∧ (P e.2 = true → e.2 = n))
    (hn : ∃ e ∈ es, e.1 = n ∨ e.2 = n) : (g.addEdges es).nodes.filter P = (g.addNode n).nodes.filter P := by
  have hmem : n ∈ (g.addEdges es).nodes := by
    obtain ⟨e, he, hend⟩ := hn
    exact (mem_nodes_addEdges es g).2 (.inr ⟨e, he, hend.imp Eq.symm Eq.symm⟩)
  rw [← addNode_of_mem hmem]
  clear hn hmem
  induction es generalizing g with
  | nil => rfl
  | cons e es ih =>
    obtain ⟨h1, h2⟩ := h e List.mem_cons_self
    have hedge : ((g.addEdge e.1 e.2).addNode n).nodes = (((g.addNode e.1).addNode e.2).addNode n).nodes := by
      rw [nodes_addNode, nodes_addNode, nodes_addEdge]
    refine (ih (g := g.addEdge e.1 e.2) fun f hf => h f (List.mem_cons_of_mem _ hf)).trans ?_
    rw [hedge, filter_addNode_addNode h2, filter_addNode_addNode h1]

theorem isEmpty_parents : (g.parents n).isEmpty = true ↔ ∀ m, ¬ g.Edge m n := by
  simp [List.isEmpty_iff, List.eq_nil_iff_forall_not_mem, mem_parents]

theorem isEmpty_children : (g.children n).isEmpty = true ↔ ∀ m, ¬ g.Edge n m := by
  simp [List.isEmpty_iff, List.eq_nil_iff_forall_not_mem, mem_children]

theorem addEdges_append (g : Graph α) (es fs : List (α × α)) : g.addEdges (es ++ fs) = (g.addEdges es).addEdges fs :=
  List.foldl_append

end Graph

namespace Wiring

open Program (Obtainable)

variable {p : Program} {t : Tensor} {x y r f : String} {s : Split} {c d : Cursor} {n m : Node} {raw : Graph Node}
  {es : List Dependency}

/-! ## The order of the tensors -/

/-- Whether a node is the output or a tensor. -/
def isOrigin (n : Node) : Bool := decide (n = output ∨ n.kind = .tensor)

theorem isOrigin_tensor (r : String) : isOrigin (.tensor r) = true := decide_eq_true (.inr rfl)

theorem Depends.origin (hd : Depends p t n m) : (isOrigin n = true → n = .tensor t.root) ∧ isOrigin m = false := by
  obtain ⟨hout, -, htensor⟩ := hd.target_ne
  refine ⟨fun hn => ?_, ?_⟩
  · rcases of_decide_eq_true hn with rfl | hkind
    · exact absurd rfl hd.kind_ne_other
    · cases hd with
      | rank _ hd =>
        cases hd with
        | declared => rfl
        | split _ _ _ hd => cases hd <;> cases hkind
        | _ => cases hkind
      | tensorTaken _ => rfl
      | _ => cases hkind
  · rw [isOrigin, decide_eq_false_iff_not]
    rintro (rfl | hkind)
    · exact hout rfl
    · cases m <;> cases hkind
      exact htensor _ rfl

theorem origins_tensorEdges (hp : p.Named) (ht : t ∈ p.tensors) (h : tensorEdges p t = .ok es) (g : Graph Node) :
    (g.addEdges es).nodes.filter isOrigin = (g.addNode (.tensor t.root)).nodes.filter isOrigin := by
  refine Graph.filter_nodes_addEdges es (fun e he => ?_) ?_
  · obtain ⟨h1, h2⟩ := ((mem_tensorEdges hp ht h).1 he).origin
    exact ⟨h1, fun h => absurd (h2.symm.trans h) Bool.false_ne_true⟩
  · obtain ⟨start, hopens⟩ := exists_opens hp.toConsistent ht
    exact ⟨_, (mem_tensorEdges hp ht h).2 (.tensorTaken (.inl hopens)), .inl rfl⟩

/-- **Each tensor that is new comes behind those before it.** -/
theorem origins_tensorsEdges (hp : p.Named) : ∀ {ts : List Tensor} {es : List Dependency} {g : Graph Node},
    (∀ t ∈ ts, t ∈ p.tensors) → (ts.map Tensor.root).Nodup → tensorsEdges p ts = .ok es →
    (g.addEdges es).nodes.filter isOrigin = g.nodes.filter isOrigin ++
      (ts.filter fun t => decide (Node.tensor t.root ∉ g.nodes)).map fun t => Node.tensor t.root
  | [], _, _, _, _, h => by
    cases h
    exact (List.append_nil _).symm
  | t :: ts, es, g, hts, hnd, h => by
    rw [tensorsEdges] at h
    split at h
    · cases h
    rename_i here hhere
    cases hrest : tensorsEdges p ts with
    | error e => rw [hrest] at h; cases h
    | ok rest =>
      rw [hrest] at h
      cases h
      rw [List.map_cons, List.nodup_cons] at hnd
      have hfirst := origins_tensorEdges hp (hts t List.mem_cons_self) hhere g
      -- The edges of the first tensor add no other tensor.
      have hmem : ∀ u ∈ ts, Node.tensor u.root ∈ (g.addEdges here).nodes ↔ Node.tensor u.root ∈ g.nodes := by
        intro u hu
        have hne : Node.tensor u.root ≠ .tensor t.root := fun heq =>
          hnd.1 (Node.tensor.inj heq ▸ List.mem_map_of_mem hu)
        have hiff := congrArg (fun l => Node.tensor u.root ∈ l) hfirst
        simpa [List.mem_filter, isOrigin_tensor, Graph.mem_nodes_addNode, hne] using hiff
      have hfilter : (ts.filter fun u => decide (Node.tensor u.root ∉ (g.addEdges here).nodes)) =
          ts.filter fun u => decide (Node.tensor u.root ∉ g.nodes) :=
        List.filter_congr fun u hu => by simp only [hmem u hu]
      rw [Graph.addEdges_append, origins_tensorsEdges hp (fun u hu => hts u (List.mem_cons_of_mem _ hu)) hnd.2 hrest,
        hfilter, hfirst, Graph.filter_nodes_addNode, List.append_assoc]
      by_cases hnew : Node.tensor t.root ∈ g.nodes <;> simp [hnew, isOrigin_tensor]

theorem isOrigin_skeleton {k : Node} (hk : k.kind = .other ∨ k.kind = .loop) (ho : isOrigin k = true) : k = output := by
  rcases of_decide_eq_true ho with h | h
  · exact h
  · rw [h] at hk
    rcases hk with hk | hk <;> cases hk

theorem origins_skeleton (p : Program) : (Graph.empty.addEdges (skeleton p)).nodes.filter isOrigin = [output] := by
  refine Graph.filter_nodes_addEdges (n := output) _ (fun e he => ?_) ⟨(output, graphics), List.mem_cons_self, .inl rfl⟩
  obtain ⟨h1, h2⟩ := kind_of_mem_skeleton he
  exact ⟨isOrigin_skeleton h1, isOrigin_skeleton h2⟩

theorem origins_start (p : Program) :
    ((Graph.empty.addEdges (skeleton p)).addEdge output (.tensor p.output)).nodes.filter isOrigin =
      [output, .tensor p.output] := by
  have hout : output ∈ (Graph.empty.addEdges (skeleton p)).nodes :=
    List.mem_of_mem_filter (p := isOrigin) (by rw [origins_skeleton]; exact List.mem_singleton_self _)
  have hnew : Node.tensor p.output ∉ (Graph.empty.addEdges (skeleton p)).nodes := fun hmem => by
    have hfound := List.mem_filter.2 ⟨hmem, isOrigin_tensor p.output⟩
    rw [origins_skeleton] at hfound
    simp [output] at hfound
  rw [Graph.nodes_addEdge, Graph.addNode_of_mem hout, Graph.filter_nodes_addNode, origins_skeleton, if_pos]
  · rfl
  · exact ⟨isOrigin_tensor p.output, hnew⟩

/-- **The output comes first, then its tensor, then the others as they are declared.** -/
theorem origins_graph (hp : p.Named) (hraw : p.graph = .ok raw) : raw.nodes.filter isOrigin =
    output :: .tensor p.output :: (p.tensors.filter fun t => decide (t.root ≠ p.output)).map fun t =>
      Node.tensor t.root := by
  rw [Program.graph, edges] at hraw
  cases hout : settledOutput p with
  | error e => rw [hout] at hraw; cases hraw
  | ok out =>
    cases hes : tensorsEdges p p.tensors with
    | error e => rw [hout, hes] at hraw; cases hraw
    | ok es =>
      rw [hout, hes] at hraw
      cases hraw
      rw [root_settledOutput hp.toConsistent hout]
      have hstart := origins_start p
      have hmem : ∀ r, Node.tensor r ∈ ((Graph.empty.addEdges (skeleton p)).addEdge output (.tensor p.output)).nodes ↔
          r = p.output := by
        intro r
        have hiff := congrArg (fun l => Node.tensor r ∈ l) hstart
        simpa [List.mem_filter, isOrigin, Node.kind, output] using hiff
      rw [Graph.addEdges_append]
      refine (origins_tensorsEdges hp (fun t ht => ht) hp.nodup_roots hes).trans ?_
      rw [hstart]
      simp only [hmem]
      rfl

theorem isStatic_of_split (hs : p.rules.split? x = some s) : p.rules.isStatic x = !s.step.isDynamic := by
  rw [RuleSet.isStatic, hs, Option.any_some]

section

variable (hp : p.Named) (hraw : p.graph = .ok raw)

include hp hraw

theorem edge_tensor_iff : raw.Edge n (.tensor r) ↔ n = output ∧ r = p.output := by
  refine ⟨fun he => ⟨eq_of_edge_tensor hp hraw he, ?_⟩, ?_⟩
  · rcases (edge_iff hp hraw).1 he with he | he | ⟨t, -, hd⟩
    · have hmem := end_mem_of_mem_chain _ he
      simp [graphics, startLoop, body, footer] at hmem
    · exact Node.tensor.inj (Prod.mk.inj he).2
    · exact absurd rfl (hd.target_ne.2.2 r)
  · rintro ⟨rfl, rfl⟩
    exact (edge_iff hp hraw).2 (.inr (.inl rfl))

theorem tensor_mem_nodes (h : .tensor r ∈ raw.nodes) : ∃ t ∈ p.tensors, t.root = r := by
  have hmem := List.mem_filter.2 ⟨h, isOrigin_tensor r⟩
  rw [origins_graph hp hraw] at hmem
  simp only [List.mem_cons, List.mem_map, List.mem_filter] at hmem
  rcases hmem with hmem | hmem | ⟨t, ⟨ht, -⟩, hroot⟩
  · cases hmem
  · exact ⟨p.outputTensor, hp.output_mem, (root_outputTensor p).trans (Node.tensor.inj hmem).symm⟩
  · exact ⟨t, ht, Node.tensor.inj hroot⟩

theorem exists_stands_of_fiber (h : .fiber f ∈ raw.nodes) : ∃ t ∈ p.tensors, ∃ c, Stands p t c ∧ c.fiber = f := by
  obtain ⟨t, ht, hf⟩ := (fiber_mem_nodes hp hraw).1 h
  exact ⟨t, ht, (mem_fiberNames hp ht).1 hf⟩

/-! ## What is named is produced -/

/-- **A fiber that a walk comes to is the root of its tensor or comes out of a loop.** -/
theorem Stands.produced (ht : t ∈ p.tensors) (hc : Stands p t c) :
    ∃ n, raw.Edge n (.fiber c.fiber) ∧ (n.kind = .swizzle ∨ n.kind = .loop) := by
  refine hc.induction (P := fun c => ∃ n, raw.Edge n (.fiber c.fiber) ∧ (n.kind = .swizzle ∨ n.kind = .loop))
    (fun c hopens => ?_) fun c es d hc _ hm => ?_
  · exact ⟨_, edge_of_depends hp hraw ht (.root (.inl hopens)), .inl rfl⟩
  rcases hc.enters_or_meets hm with ⟨x, hx⟩ | ⟨x, hx⟩
  · exact ⟨_, edge_of_depends hp hraw ht (.next hx), .inr rfl⟩
  · exact ⟨_, edge_of_depends hp hraw ht (.root (.inr ⟨x, c, hx⟩)), .inl rfl⟩

/-- **A rank that a tensor can have comes from the tensor or from a partitioning**, unless it lies between two static
steps. -/
theorem exists_edge_rank (ht : t ∈ p.tensors) (hx : Obtainable p t x)
    (hst : x ∈ t.ranks ∨ p.rules.isStatic x = false) : ∃ n, raw.Edge n (.rank t.root x) := by
  cases hx with
  | declared hx => exact ⟨_, edge_of_depends hp hraw ht (.rank hx .declared)⟩
  | @made z _ s hz hs hx =>
    have hrank := hz.rule_declared hp.toConsistent ht hs
    cases hdyn : s.step.isDynamic with
    | true => exact ⟨_, edge_of_depends hp hraw ht (.rank hrank (.split hs hdyn rfl (.made hx)))⟩
    | false =>
      have hfinal : x ∈ s.finals := by
        rcases Split.mem_pair.1 hx with rfl | rfl
        · exact hp.coherent.outer_mem_finals hs
        · by_cases hlast : s.index + 1 = s.rule.steps.length
          · rw [Split.finals_of_last hlast]
            exact List.mem_cons_of_mem _ List.mem_cons_self
          · -- The inner part is split in turn, by a static step.
            obtain ⟨s', hs', hr', -⟩ := hp.coherent.split?_inner hs hlast
            have hst' : p.rules.isStatic s.inner = true := by
              rw [isStatic_of_split hs', hp.coherent.isDynamic_eq hs hs' hr', hdyn, Bool.not_false]
            rcases hst with hst | hst
            · have hnone := hp.maker?_declared ht hst
              rw [hp.maker?_of_split hs hx] at hnone
              cases hnone
            · rw [hst'] at hst
              cases hst
      have hstatic : p.rules.isStatic s.rule.rank = true := by
        obtain ⟨s', hs', hr', -⟩ := hp.coherent.split?_rank hs
        rw [isStatic_of_split hs', hp.coherent.isDynamic_eq hs hs' hr', hdyn, Bool.not_false]
      exact ⟨_, edge_of_depends hp hraw ht (.rank hrank (.final hstatic (mem_finals_rank hp.coherent hs hfinal)))⟩

theorem Depends.rank_produced (ht : t ∈ p.tensors) (hd : Depends p t (.rank r x) m) :
    ∃ n, raw.Edge n (.rank r x) := by
  cases hd with
  | rank hx hd =>
    cases hd with
    | source => exact exists_edge_rank hp hraw ht (.declared hx) (.inl hx)
    | split hs hdyn hrank hd =>
      cases hd with
      | source =>
        refine exists_edge_rank hp hraw ht (.of_rule hp.toConsistent hs (hrank ▸ hx)) (.inr ?_)
        rw [isStatic_of_split hs, hdyn, Bool.not_true]
  | rankTaken hc hx =>
    have htrack := hc.stands.onTrack hp ht
    exact exists_edge_rank hp hraw ht (htrack.obtained _ hx) (.inr (htrack.unstatic _ hx))

/-- **What is neither the output nor a tensor has a parent.** -/
theorem exists_parent (hn : n ∈ raw.nodes) (ho : isOrigin n = false) : ∃ m, raw.Edge m n := by
  have hchain : ∀ k ∈ graphics :: startLoop :: p.loops.map Node.loop ++ [body, footer], ∃ m, raw.Edge m k := by
    intro k hk
    obtain ⟨e, he, rfl⟩ := exists_mem_chain (n := output) hk
    exact ⟨e.1, (edge_iff hp hraw).2 (.inl he)⟩
  cases hb : n.isBookkeeping with
  | false =>
    cases (statement_iff hp hraw).1 ⟨hn, hb⟩ with
    | anchor hn =>
      simp only [List.mem_cons, List.not_mem_nil, or_false] at hn
      rcases hn with rfl | rfl | rfl | rfl
      · cases ho
      all_goals exact hchain _ (by simp)
    | loop hx => exact hchain _ (by simp [hx])
    | taken ht hc => exact ⟨_, edge_of_depends hp hraw ht (.tensorTaken hc)⟩
    | static ht hx hst => exact ⟨_, edge_of_depends hp hraw ht (.rank hx (.source hst))⟩
    | dynamic ht hx =>
      obtain ⟨s, hs, hdyn, hrank⟩ := (mem_dynamicSources hp.toConsistent ht).1 hx
      exact ⟨_, edge_of_depends hp hraw ht (.rank hrank (.split hs hdyn rfl .source))⟩
    | remade ht hx =>
      obtain ⟨s, hs, hdyn, hrank⟩ := (mem_dynamicSources hp.toConsistent ht).1 hx
      obtain ⟨c, d, hm⟩ := exists_meets hp ht hs hdyn hrank
      exact ⟨_, edge_of_depends hp hraw ht (.remade hm)⟩
  | true =>
    cases n with
    | tensor r => cases ho
    | rank r x =>
      obtain ⟨m, he | he⟩ := (Program.mem_nodes_graph hraw).1 hn
      · obtain ⟨t, ht, hd⟩ := exists_depends hp hraw he (by simp [Node.kind])
        exact hd.rank_produced hp hraw ht
      · exact ⟨m, he⟩
    | fiber f =>
      obtain ⟨t, ht, c, hc, rfl⟩ := exists_stands_of_fiber hp hraw hn
      exact (hc.produced hp hraw ht).imp fun m hm => hm.1
    | other a =>
      have ha : a = .startLoop := of_decide_eq_true hb
      exact hchain _ (by simp [ha, startLoop])
    | _ => cases hb

/-! ## What is produced is used -/

theorem exists_taken (ht : t ∈ p.tensors) (hx : x ∈ t.ranks) (hy : y ∈ opened p x) :
    ∃ m, raw.Edge (.rank t.root y) m ∧ (m.kind = .swizzle ∨ m.kind = .part) := by
  obtain ⟨start, hopens⟩ := exists_opens hp.toConsistent ht
  have hpend : y ∈ start.pending :=
    (hopens.pending_perm hp.toConsistent ht).1.mem_iff.2 (List.mem_flatMap.2 ⟨x, hx, hy⟩)
  exact ⟨_, edge_of_depends hp hraw ht (.rankTaken (.inl hopens) hpend), .inl rfl⟩

/-- **A rank that is there goes into a root or into a partitioning.** -/
theorem Depends.consumed (ht : t ∈ p.tensors) (hd : Depends p t n (.rank r x)) :
    ∃ m, raw.Edge (.rank r x) m ∧ (m.kind = .swizzle ∨ m.kind = .part) := by
  cases hd with
  | @rank z _ _ hz hd =>
    cases hd with
    | declared =>
      by_cases hst : p.rules.isStatic x = true
      · exact ⟨_, edge_of_depends hp hraw ht (.rank hz (.source hst)), .inr rfl⟩
      · exact exists_taken hp hraw ht hz (by rw [opened, if_neg hst]; exact List.mem_singleton_self x)
    | final hst hf =>
      obtain ⟨s, hs, -⟩ := exists_split_of_isStatic hst
      refine exists_taken hp hraw ht hz ?_
      rw [opened, if_pos hst, Program.loopsFor_of_split hs]
      rwa [RuleSet.finals, hs] at hf
    | split hs hdyn hrank hd =>
      cases hd with
      | made hx =>
        obtain ⟨c, d, hm⟩ := exists_meets hp ht hs hdyn (hrank ▸ hz)
        obtain ⟨s', rest, hs', -, -, hperm, -⟩ := hm.exists_split hp ht
        rw [hs] at hs'
        cases hs'
        have hpend : x ∈ d.pending := hperm.mem_iff.2 (List.mem_append_left _ hx)
        exact ⟨_, edge_of_depends hp hraw ht (.rankTaken (.inr ⟨_, c, hm⟩) hpend), .inl rfl⟩

theorem not_edge_footer : ¬ raw.Edge footer m := by
  intro he
  rcases (edge_iff hp hraw).1 he with he | he | ⟨t, -, hd⟩
  · have hlast : (output :: (graphics :: startLoop :: p.loops.map Node.loop ++ [body, footer])).Pairwise
        fun a _ => a ≠ footer := by
      have hloops : (p.loops.map Node.loop).Pairwise fun a _ => a ≠ footer :=
        List.pairwise_map.2 (List.pairwise_of_forall fun _ _ => by simp [footer])
      simpa [List.pairwise_append, output, graphics, startLoop, body, footer, Anchor.output, Anchor.graphics,
        Anchor.startLoop, Anchor.body, Anchor.footer] using hloops
    exact rel_of_mem_chain hlast _ he rfl
  · exact absurd (Prod.mk.inj he).1 (by decide)
  · exact hd.kind_ne_other rfl

theorem path_footer_of_mem (h : n ∈ output :: graphics :: startLoop :: body :: p.loops.map Node.loop) :
    raw.Path n footer := by
  have hlist : output :: (graphics :: startLoop :: p.loops.map Node.loop ++ [body, footer]) =
      (output :: graphics :: startLoop :: p.loops.map Node.loop ++ [body]) ++ [footer] := by simp
  have hall := (List.pairwise_append.1 (hlist ▸ pairwise_path_skeleton hp hraw)).2.2
  refine hall n ?_ footer (List.mem_singleton_self _)
  simp only [List.mem_cons, List.cons_append, List.mem_append] at h ⊢
  tauto

theorem Stands.path_footer (ht : t ∈ p.tensors) (hc : Stands p t c) : raw.Path (.fiber c.fiber) footer := by
  by_cases hnil : c.pending = []
  · exact (edge_of_depends hp hraw ht (.finish hc hnil)).path.trans (path_footer_of_mem hp hraw (by simp))
  · obtain ⟨x, hx, hpath⟩ := hc.reaches_loop hp hraw ht hnil
    exact hpath.trans (path_footer_of_mem hp hraw (by simp [hx]))

theorem Takes.path_footer (ht : t ∈ p.tensors) (hc : Takes p t c) :
    raw.Path (.ofSwizzle t.root c.pending) footer :=
  (edge_of_depends hp hraw ht (.root hc)).path.trans (hc.stands.path_footer hp hraw ht)

theorem Statement.path_footer (h : Statement p n) (hne : n ≠ footer) : raw.Path n footer := by
  have hmeets : ∀ {t x}, t ∈ p.tensors → x ∈ dynamicSources p t →
      raw.Path (.ofPart t.root [x]) footer ∧ raw.Edge (.fromFiber t.root x) (.ofPart t.root [x]) := by
    intro t x ht hx
    obtain ⟨s, hs, hdyn, hrank⟩ := (mem_dynamicSources hp.toConsistent ht).1 hx
    obtain ⟨c, d, hm⟩ := exists_meets hp ht hs hdyn hrank
    obtain ⟨y, hy, hpath⟩ := hm.reaches_loop hp hraw ht
    exact ⟨hpath.trans (path_footer_of_mem hp hraw (by simp [hy])), edge_of_depends hp hraw ht (.cut hm)⟩
  cases h with
  | anchor hn =>
    simp only [List.mem_cons, List.not_mem_nil, or_false] at hn
    rcases hn with rfl | rfl | rfl | rfl
    · exact path_footer_of_mem hp hraw (by simp)
    · exact path_footer_of_mem hp hraw (by simp)
    · exact path_footer_of_mem hp hraw (by simp)
    · exact absurd rfl hne
  | loop hx => exact path_footer_of_mem hp hraw (by simp [hx])
  | taken ht hc => exact hc.path_footer hp hraw ht
  | static ht hx hst =>
    have hpart := edge_of_depends hp hraw ht (.rank hx (.graphics hst))
    exact hpart.path.trans (path_footer_of_mem hp hraw (by simp))
  | dynamic ht hx => exact (hmeets ht hx).1
  | remade ht hx => exact (hmeets ht hx).2.path.trans (hmeets ht hx).1

/-- **Everything but the footer leads to the footer.** -/
theorem path_footer (hn : n ∈ raw.nodes) (hne : n ≠ footer) : raw.Path n footer := by
  cases hb : n.isBookkeeping with
  | false => exact ((statement_iff hp hraw).1 ⟨hn, hb⟩).path_footer hp hraw hne
  | true =>
    cases n with
    | tensor r =>
      obtain ⟨t, ht, rfl⟩ := tensor_mem_nodes hp hraw hn
      obtain ⟨start, hopens⟩ := exists_opens hp.toConsistent ht
      have htaken := edge_of_depends hp hraw ht (.tensorTaken (.inl hopens))
      exact htaken.path.trans (Takes.path_footer hp hraw ht (.inl hopens))
    | rank r x =>
      obtain ⟨k, hk⟩ := exists_parent hp hraw hn rfl
      obtain ⟨t, ht, hd⟩ := exists_depends hp hraw hk (by simp [Node.kind])
      obtain ⟨m, he, hkind⟩ := hd.consumed hp hraw ht
      have hm : m.isBookkeeping = false ∧ m ≠ footer := by
        rcases hkind with hkind | hkind <;> cases m <;> cases hkind <;> simp [Node.isBookkeeping, footer]
      have hmem := (Program.wellFormed_of_graph hraw).end_mem he
      exact he.path.trans (((statement_iff hp hraw).1 ⟨hmem, hm.1⟩).path_footer hp hraw hm.2)
    | fiber f =>
      obtain ⟨t, ht, c, hc, rfl⟩ := exists_stands_of_fiber hp hraw hn
      exact hc.path_footer hp hraw ht
    | other a =>
      have ha : a = .startLoop := of_decide_eq_true hb
      exact path_footer_of_mem hp hraw (by simp [ha, startLoop])
    | _ => cases hb

theorem parentless_iff (hn : n ∈ raw.nodes) :
    (∀ m, ¬ raw.Edge m n) ↔ n ≠ .tensor p.output ∧ isOrigin n = true := by
  constructor
  · refine fun h => ⟨?_, ?_⟩
    · rintro rfl
      exact h output ((edge_tensor_iff hp hraw).2 ⟨rfl, rfl⟩)
    · rw [← Bool.not_eq_false]
      intro ho
      obtain ⟨m, he⟩ := exists_parent hp hraw hn ho
      exact h m he
  · rintro ⟨hne, ho⟩ m he
    rcases of_decide_eq_true ho with rfl | hkind
    · exact not_edge_output hp hraw he
    · cases n <;> cases hkind
      exact hne (by rw [((edge_tensor_iff hp hraw).1 he).2])

theorem childless_iff (hn : n ∈ raw.nodes) : (∀ m, ¬ raw.Edge n m) ↔ n = footer := by
  constructor
  · intro h
    by_contra hne
    obtain ⟨m, he, -⟩ := Relation.TransGen.head'_iff.1 (path_footer hp hraw hn hne)
    exact h m he
  · rintro rfl m
    exact not_edge_footer hp hraw

end

/-- **Where the graph of a validated program begins and ends.**  Its nodes without a parent are the output and, in the
order of their declaration, the tensors other than that of the output.  The footer is the only node without a child,
and every other node reaches it.  Every fiber that is used is the root of a tensor or comes out of a loop, and every
rank that is made is used for a root or a partitioning. -/
theorem graph_ends (hp : p.Validated) : ∃ raw, p.graph = .ok raw ∧
    raw.sources = output :: (p.tensors.filter fun t => decide (t.root ≠ p.output)).map (fun t => Node.tensor t.root) ∧
    raw.sinks = [footer] ∧ (∀ n ∈ raw.nodes, n ≠ footer → raw.reaches n footer = true) ∧
    (∀ f m, raw.Edge (.fiber f) m → ∃ n, raw.Edge n (.fiber f) ∧ (n.kind = .swizzle ∨ n.kind = .loop)) ∧
    ∀ n r x, raw.Edge n (.rank r x) → ∃ m, raw.Edge (.rank r x) m ∧ (m.kind = .swizzle ∨ m.kind = .part) := by
  have hn := hp.named
  obtain ⟨raw, hraw, -⟩ := hp.consistent.graph_total
  have hw := Program.wellFormed_of_graph hraw
  refine ⟨raw, hraw, ?_, ?_, fun n hmem hne => Graph.reaches_iff.2 (path_footer hn hraw hmem hne), fun f m he => ?_,
    fun n r x he => ?_⟩
  · have hsource : ∀ n ∈ raw.nodes, (raw.parents n).isEmpty = (decide (n ≠ .tensor p.output) && isOrigin n) :=
      fun n hmem => Bool.eq_iff_iff.2 (by
        rw [Graph.isEmpty_parents, Bool.and_eq_true, decide_eq_true_eq, parentless_iff hn hraw hmem])
    have hothers : ∀ k ∈ (p.tensors.filter fun t => decide (t.root ≠ p.output)).map (fun t => Node.tensor t.root),
        decide (k ≠ .tensor p.output) = true := by
      intro k hk
      obtain ⟨t, ht, rfl⟩ := List.mem_map.1 hk
      simpa using (List.mem_filter.1 ht).2
    rw [Graph.sources, List.filter_congr hsource, ← List.filter_filter, origins_graph hn hraw,
      List.filter_cons_of_pos (by simp [output]), List.filter_cons_of_neg (by simp), List.filter_eq_self.2 hothers]
  · have hsink : ∀ n ∈ raw.nodes, (raw.children n).isEmpty = decide (n = footer) :=
      fun n hmem => Bool.eq_iff_iff.2 (by
        rw [Graph.isEmpty_children, decide_eq_true_eq, childless_iff hn hraw hmem])
    have hfooter : footer ∈ raw.nodes := hw.path_end (path_footer_of_mem hn hraw (n := body) (by simp))
    rw [Graph.sinks, List.filter_congr hsink, List.filter_eq, List.count_eq_one_of_mem hw.nodup_nodes hfooter]
    rfl
  · obtain ⟨t, ht, c, hc, rfl⟩ := exists_stands_of_fiber hn hraw (hw.start_mem he)
    exact hc.produced hn hraw ht
  · obtain ⟨t, ht, hd⟩ := exists_depends hn hraw he (by simp [Node.kind])
    exact hd.consumed hn hraw ht

/-- In the program with two steps only the leader has no parent beside the output, and the fiber for which the follower
waits is produced. -/
theorem graph_ends_twoSteps : twoSteps.Validated ∧ ∃ raw, twoSteps.graph = .ok raw ∧
    raw.sources = [output, .tensor "A"] ∧ raw.sinks = [footer] ∧
    ∃ n, raw.Edge n (.fiber "a_k2") ∧ (n.kind = .swizzle ∨ n.kind = .loop) := by
  obtain ⟨raw, hraw, hsources, hsinks, -, hfibers, -⟩ := graph_ends validated_twoSteps
  have hled : raw.Edge (.fiber "a_k2") (.ofPart "B" ["K"]) := by
    have hb : (⟨"B", some ["K"]⟩ : Tensor) ∈ twoSteps.tensors := List.mem_cons_of_mem _ List.mem_cons_self
    obtain ⟨s, hs, hdyn, hrank, hleader, hname⟩ : ∃ s, twoSteps.rules.split? "K" = some s ∧ s.step.isDynamic = true ∧
        s.rule.rank = "K" ∧ s.step.leader = "A" ∧ fiberName s.step.leader s.outer = "a_k2" :=
      ⟨⟨⟨"K", [⟨.uniformOccupancy, 6, "A"⟩, ⟨.uniformOccupancy, 3, "A"⟩]⟩, 0, ⟨.uniformOccupancy, 6, "A"⟩⟩,
        by decide +kernel⟩
    have hd : SplitDepends "B" "K" s (.fiber (fiberName s.step.leader s.outer)) (.ofPart "B" ["K"]) :=
      .led (by rw [hleader]; decide)
    rw [hname] at hd
    exact edge_of_depends validated_twoSteps.named hraw hb (.rank List.mem_cons_self (.split hs hdyn hrank hd))
  exact ⟨validated_twoSteps, raw, hraw, hsources, hsinks, hfibers _ _ hled⟩

end Wiring
end LoopNest
