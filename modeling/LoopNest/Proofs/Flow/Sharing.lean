import LoopNest.Proofs.Flow.Cycles
/-!
# Proofs.Flow.Sharing — which tensors have fibers in common

A fiber is a node of the graph by its name alone: the root of its tensor and a rank, in small letters, with an
underscore between them.  The walk of a tensor comes to the ranks that it has in the end and to those that it splits on
the way (`visited`), and to its end, so the names of its fibers can be listed (`mem_fiberNames`).  Names may have
underscores and capitals of their own, and so two tensors can have a fiber in common.  They do exactly if their names
`Clash` (`fibers_shared_iff`); if no two tensors clash, only a tensor that leads another has a fiber that the other
uses.
-/
namespace LoopNest

/-- **Two texts with a mark in them are equal** if they agree on both sides of it, or if one mark lies in what is after
or before the other. -/
theorem append_mark_eq_iff {α : Type} {a b x y : List α} {c : α} : a ++ c :: x = b ++ c :: y ↔
    (a = b ∧ x = y) ∨ (∃ w, b = a ++ c :: w ∧ x = w ++ c :: y) ∨ ∃ w, a = b ++ c :: w ∧ y = w ++ c :: x := by
  constructor
  · intro h
    rcases List.append_eq_append_iff.1 h with ⟨w, rfl, hx⟩ | ⟨w, rfl, hy⟩
    · cases w with
      | nil => exact .inl ⟨(List.append_nil a).symm, (List.cons.inj hx).2⟩
      | cons d w =>
        obtain ⟨rfl, rfl⟩ := List.cons.inj hx
        exact .inr (.inl ⟨w, rfl, rfl⟩)
    · cases w with
      | nil => exact .inl ⟨List.append_nil b, ((List.cons.inj hy).2).symm⟩
      | cons d w =>
        obtain ⟨rfl, rfl⟩ := List.cons.inj hy
        exact .inr (.inr ⟨w, rfl, rfl⟩)
  · rintro (⟨rfl, rfl⟩ | ⟨w, rfl, rfl⟩ | ⟨w, rfl, rfl⟩) <;> simp

theorem underscore_eq_iff {a b x y : String} : a ++ "_" ++ x = b ++ "_" ++ y ↔
    (a = b ∧ x = y) ∨ (∃ w, b = a ++ "_" ++ w ∧ x = w ++ "_" ++ y) ∨ ∃ w, a = b ++ "_" ++ w ∧ y = w ++ "_" ++ x := by
  have hword : ∀ {P : List Char → Prop}, (∃ w, P w) ↔ ∃ w : String, P w.toList := fun {P} =>
    ⟨fun ⟨w, hw⟩ => ⟨String.ofList w, by rwa [String.toList_ofList]⟩, fun ⟨w, hw⟩ => ⟨w.toList, hw⟩⟩
  simp only [← String.toList_inj, String.toList_append]
  have hmark : "_".toList = ['_'] := rfl
  simp only [hmark, List.append_assoc, List.singleton_append, append_mark_eq_iff, hword]

namespace Wiring

variable {p : Program} {t u : Tensor} {x y f : String} {s : Split} {c d : Cursor} {n m : Node} {raw : Graph Node}

/-! ## The fibers of a tensor -/

/-- **The ranks that the walk of a tensor comes to**: those that it has in the end, and those that it splits on the
way. -/
def visited (p : Program) (t : Tensor) : List String := t.ranks.flatMap p.loopsFor ++ dynamicSources p t

/-- What stands behind the root in the names of the fibers of a tensor. -/
def fiberTails (p : Program) (t : Tensor) : List String :=
  (visited p t).map Text.lower ++ [if t.root = p.output then "ref" else "val"]

/-- **The names of the fibers of a tensor.** -/
def fiberNames (p : Program) (t : Tensor) : List String :=
  (fiberTails p t).map fun tail => Text.lower t.root ++ "_" ++ tail

theorem Stands.exists_enters (hp : p.Named) (ht : t ∈ p.tensors) (hc : Stands p t c) :
    ∀ y ∈ c.consumed, ∃ b d, Enters p t y b d := by
  refine hc.induction (P := fun c => ∀ y ∈ c.consumed, ∃ b d, Enters p t y b d) (fun c hopens y hy => ?_)
    fun c es d hc ih hm y hy => ?_
  · rw [(hopens.onTrack hp.toConsistent ht).2] at hy
    cases hy
  rcases hc.enters_or_meets hm with ⟨x, hx⟩ | ⟨x, hx⟩
  · obtain ⟨rest, -, hd⟩ := Cursor.pop?_eq_some.1 hx.2.1
    rw [hd] at hy
    rcases List.mem_append.1 hy with hy | hy
    · exact ih y hy
    · exact ⟨c, d, List.mem_singleton.1 hy ▸ hx⟩
  · obtain ⟨-, -, -, -, -, -, -, hd, -⟩ := hx.exists_split hp ht
    rw [hd] at hy
    exact ih y hy

/-- **A walk ends with nothing pending**, and has then entered the loops over all ranks that the tensor has in the
end. -/
theorem exists_last (hp : p.Named) (ht : t ∈ p.tensors) :
    ∃ c, Stands p t c ∧ c.pending = [] ∧ c.consumed.Perm (t.ranks.flatMap p.loopsFor) := by
  obtain ⟨start, hopens⟩ := exists_opens hp.toConsistent ht
  obtain ⟨es, last, htrip, hnil⟩ := hopens.stands.exists_end hp ht
  have hlast : Stands p t last := stands_iff.2 ⟨start, es, hopens, htrip⟩
  have hperm := (hlast.onTrack hp ht).perm
  rw [hnil, List.flatMap_nil, List.append_nil] at hperm
  exact ⟨last, hlast, hnil, hperm⟩

/-- **A walk enters the loop over each rank that the tensor has in the end.** -/
theorem exists_enters (hp : p.Named) (ht : t ∈ p.tensors) (hx : x ∈ t.ranks.flatMap p.loopsFor) :
    ∃ c d, Enters p t x c d := by
  obtain ⟨last, hlast, -, hperm⟩ := exists_last hp ht
  exact hlast.exists_enters hp ht x (hperm.mem_iff.2 hx)

theorem mem_visited (hp : p.Named) (ht : t ∈ p.tensors) :
    x ∈ visited p t ↔ ∃ c, Stands p t c ∧ c.peek? = some x := by
  rw [visited, List.mem_append]
  constructor
  · rintro (hx | hx)
    · obtain ⟨c, d, h⟩ := exists_enters hp ht hx
      obtain ⟨rest, hpend, -⟩ := Cursor.pop?_eq_some.1 h.2.1
      exact ⟨c, h.1, by rw [Cursor.peek?, hpend]; rfl⟩
    · obtain ⟨s, hs, hdyn, hrank⟩ := (mem_dynamicSources hp.toConsistent ht).1 hx
      obtain ⟨c, d, h⟩ := exists_meets hp ht hs hdyn hrank
      exact ⟨c, h.1, h.2.1⟩
  · rintro ⟨c, hc, hpeek⟩
    have hpend := List.mem_of_head? hpeek
    obtain ⟨es, d, hm⟩ := (hc.onTrack hp ht).exists_move hp.toConsistent ht (List.ne_nil_of_mem hpend)
    rcases hc.enters_or_meets hm with ⟨y, hy⟩ | ⟨y, hy⟩
    · obtain ⟨rest, hy', -⟩ := Cursor.pop?_eq_some.1 hy.2.1
      rw [Cursor.peek?, hy'] at hpeek
      cases hpeek
      -- A rank whose loop is entered is not split, so it becomes itself.
      refine .inl ((hc.onTrack hp ht).perm.mem_iff.1 (List.mem_append_right _ (List.mem_flatMap.2 ⟨x, hpend, ?_⟩)))
      rw [Program.loopsFor_of_unsplit (hp.loops_unsplit x (hy.mem_loops hp ht))]
      exact List.mem_singleton_self x
    · have hxy : y = x := Option.some.inj (hy.2.1.symm.trans hpeek)
      exact .inr (hxy ▸ hy.mem_dynamicSources hp ht)

theorem fiberAt_some (p : Program) (t : Tensor) (x : String) :
    p.fiberAt (t, some x) = Text.lower t.root ++ "_" ++ Text.lower x := rfl

theorem fiberAt_none (p : Program) (t : Tensor) :
    p.fiberAt (t, none) = Text.lower t.root ++ "_" ++ (if t.root = p.output then "ref" else "val") := by
  have hend : p.fiberAt (t, none) = Text.lower t.root ++ (if decide (t.root = p.output) then "_ref" else "_val") := rfl
  rw [hend, String.append_assoc]
  by_cases h : t.root = p.output
  · simp only [h, decide_true, if_true]
    rfl
  · simp only [h, decide_false, if_false, Bool.false_eq_true]
    rfl

/-- **The names of the fibers of a tensor are those that its walk comes to.** -/
theorem mem_fiberNames (hp : p.Named) (ht : t ∈ p.tensors) : f ∈ fiberNames p t ↔ ∃ c, Stands p t c ∧ c.fiber = f := by
  simp only [fiberNames, fiberTails, List.map_append, List.map_map, List.map_cons, List.map_nil, List.mem_append,
    List.mem_map, List.mem_singleton, Function.comp_apply]
  constructor
  · rintro (⟨x, hx, rfl⟩ | rfl)
    · obtain ⟨c, hc, hpeek⟩ := (mem_visited hp ht).1 hx
      exact ⟨c, hc, by rw [(hc.onTrack hp ht).fiber_eq, hpeek, fiberAt_some]⟩
    · obtain ⟨c, hc, hnil, -⟩ := exists_last hp ht
      have hpeek : c.peek? = none := by rw [Cursor.peek?, hnil]; rfl
      exact ⟨c, hc, by rw [(hc.onTrack hp ht).fiber_eq, hpeek, fiberAt_none]⟩
  · rintro ⟨c, hc, rfl⟩
    rw [(hc.onTrack hp ht).fiber_eq]
    cases hpeek : c.peek? with
    | some x => exact .inl ⟨x, (mem_visited hp ht).2 ⟨c, hc, hpeek⟩, (fiberAt_some p t x).symm⟩
    | none => exact .inr (fiberAt_none p t)

/-! ## The fibers of the graph -/

theorem mem_finals_rank (hp : p.rules.Coherent) (hs : p.rules.split? x = some s) (hf : f ∈ s.finals) :
    f ∈ p.rules.finals s.rule.rank := by
  obtain ⟨s', hs', hr', hi'⟩ := hp.split?_rank hs
  rw [RuleSet.finals, hs', Option.map_some, Option.getD_some, Split.finals, hr', hi', List.drop_zero]
  exact List.mem_of_mem_drop hf

/-- **The fiber that a follower waits for is one of its leader.** -/
theorem exists_leader (hp : p.Named) (hs : p.rules.split? x = some s) (hdyn : s.step.isDynamic = true) :
    ∃ l ∈ p.tensors, l.root = s.step.leader ∧ ∃ c d, Enters p l s.outer c d ∧
      c.fiber = fiberName s.step.leader s.outer := by
  obtain ⟨hr, hstep, -⟩ := hp.coherent.split?_eq_some_iff.1 hs
  obtain ⟨l, hl, hroot, hrank⟩ := hp.leads s.rule hr s.step (List.mem_of_getElem? hstep) hdyn
  have houter : s.outer ∈ p.loopsFor s.rule.rank := by
    obtain ⟨s', hs', -⟩ := hp.coherent.split?_rank hs
    have hmem := mem_finals_rank hp.coherent hs (hp.coherent.outer_mem_finals hs)
    rwa [RuleSet.finals, hs', Option.map_some, Option.getD_some, ← Program.loopsFor_of_split hs'] at hmem
  obtain ⟨c, d, h⟩ := exists_enters hp hl (List.mem_flatMap.2 ⟨_, hrank, houter⟩)
  obtain ⟨rest, hpend, -⟩ := Cursor.pop?_eq_some.1 h.2.1
  exact ⟨l, hl, hroot, c, d, h, by rw [Cursor.fiber, hpend, (h.1.onTrack hp hl).root, hroot]⟩

theorem Depends.to_fiber (hd : Depends p t n (.fiber f)) : ∃ c, Stands p t c ∧ c.fiber = f := by
  cases hd with
  | rank _ hd =>
    cases hd with
    | split _ _ _ hd => cases hd
  | root hc => exact ⟨_, hc.stands, rfl⟩
  | next hx => exact ⟨_, hx.1.move hx.move, rfl⟩

/-- **A fiber is used by its tensor, or by a follower.** -/
theorem Depends.of_fiber (hd : Depends p t (.fiber f) m) : (∃ c, Stands p t c ∧ c.fiber = f) ∨
    ∃ x s, p.rules.split? x = some s ∧ s.step.isDynamic = true ∧ s.step.leader ≠ t.root ∧
      f = fiberName s.step.leader s.outer ∧ m = .ofPart t.root [x] := by
  cases hd with
  | rank _ hd =>
    cases hd with
    | split hs hdyn _ hd =>
      cases hd with
      | led hl => exact .inr ⟨_, _, hs, hdyn, hl, rfl, rfl⟩
  | remade hx => exact .inl ⟨_, hx.1, rfl⟩
  | enter hx => exact .inl ⟨_, hx.1, rfl⟩
  | finish hc _ => exact .inl ⟨_, hc, rfl⟩

section

variable (hp : p.Named) (hraw : p.graph = .ok raw)

include hp hraw

theorem Stands.exists_edge (ht : t ∈ p.tensors) (hc : Stands p t c) : ∃ m, raw.Edge (.fiber c.fiber) m := by
  by_cases hnil : c.pending = []
  · exact ⟨_, edge_of_depends hp hraw ht (.finish hc hnil)⟩
  · obtain ⟨es, d, hm⟩ := (hc.onTrack hp ht).exists_move hp.toConsistent ht hnil
    rcases hc.enters_or_meets hm with ⟨x, hx⟩ | ⟨x, hx⟩
    · exact ⟨_, edge_of_depends hp hraw ht (.enter hx)⟩
    · exact ⟨_, edge_of_depends hp hraw ht (.remade hx)⟩

/-- **The fibers in the graph are those of the tensors.** -/
theorem fiber_mem_nodes : .fiber f ∈ raw.nodes ↔ ∃ t ∈ p.tensors, f ∈ fiberNames p t := by
  rw [Program.mem_nodes_graph hraw]
  constructor
  · rintro ⟨m, he | he⟩
    · obtain ⟨t, ht, hd⟩ := exists_depends hp hraw he (.inl rfl)
      rcases hd.of_fiber with hc | ⟨x, s, hs, hdyn, -, rfl, -⟩
      · exact ⟨t, ht, (mem_fiberNames hp ht).2 hc⟩
      · obtain ⟨l, hl, -, c, d, hx, hf⟩ := exists_leader hp hs hdyn
        exact ⟨l, hl, (mem_fiberNames hp hl).2 ⟨c, hx.1, hf⟩⟩
    · obtain ⟨t, ht, hd⟩ := exists_depends hp hraw he (.inr (.inl rfl))
      exact ⟨t, ht, (mem_fiberNames hp ht).2 hd.to_fiber⟩
  · rintro ⟨t, ht, hf⟩
    obtain ⟨c, hc, rfl⟩ := (mem_fiberNames hp ht).1 hf
    exact (hc.exists_edge hp hraw ht).imp fun m => .inl

end

/-! ## Fibers in common -/

/-- **The names of two tensors clash**: in small letters, their roots agree and they have the same tail, or the longer
root is the shorter one with an underscore and a word `w` after it, and a tail of the shorter one begins with `w`, an
underscore and a tail of the longer one. -/
def Clash (p : Program) (t u : Tensor) : Prop :=
  ∃ a ∈ fiberTails p t, ∃ b ∈ fiberTails p u,
    (Text.lower t.root = Text.lower u.root ∧ a = b) ∨
    (∃ w, Text.lower u.root = Text.lower t.root ++ "_" ++ w ∧ a = w ++ "_" ++ b) ∨
    ∃ w, Text.lower t.root = Text.lower u.root ++ "_" ++ w ∧ b = w ++ "_" ++ a

theorem clash_iff : (∃ f, f ∈ fiberNames p t ∧ f ∈ fiberNames p u) ↔ Clash p t u := by
  simp only [Clash, ← underscore_eq_iff, fiberNames, List.mem_map]
  constructor
  · rintro ⟨_, ⟨a, ha, rfl⟩, b, hb, heq⟩
    exact ⟨a, ha, b, hb, heq.symm⟩
  · rintro ⟨a, ha, b, hb, heq⟩
    exact ⟨_, ⟨a, ha, rfl⟩, b, hb, heq.symm⟩

/-- **The fibers of a validated program.**  Each tensor has the fibers that `fiberNames` lists, which are those that its
walk comes to, and the graph has these fibers and no others.  Two tensors have one in common exactly if their names
clash.  If no two different tensors clash, all that produces a fiber of a tensor and all that uses it belongs to that
tensor, but for the partitionings of other tensors that it leads. -/
theorem fibers_shared_iff (hp : p.Validated) : ∃ raw, p.graph = .ok raw ∧
    (∀ t ∈ p.tensors, ∀ f, f ∈ fiberNames p t ↔ ∃ c, Stands p t c ∧ c.fiber = f) ∧
    (∀ f, .fiber f ∈ raw.nodes ↔ ∃ t ∈ p.tensors, f ∈ fiberNames p t) ∧
    (∀ t ∈ p.tensors, ∀ u ∈ p.tensors, (∃ f, f ∈ fiberNames p t ∧ f ∈ fiberNames p u) ↔ Clash p t u) ∧
    ((∀ t ∈ p.tensors, ∀ u ∈ p.tensors, t ≠ u → ¬ Clash p t u) → ∀ t ∈ p.tensors, ∀ f ∈ fiberNames p t,
      (∀ n, raw.Edge n (.fiber f) → Depends p t n (.fiber f)) ∧
      ∀ m, raw.Edge (.fiber f) m → Depends p t (.fiber f) m ∨ ∃ u ∈ p.tensors, u ≠ t ∧
        ∃ x s, p.rules.split? x = some s ∧ s.step.leader = t.root ∧ f = fiberName t.root s.outer ∧
          m = .ofPart u.root [x]) := by
  have hn := hp.named
  obtain ⟨raw, hraw, -⟩ := hp.consistent.graph_total
  refine ⟨raw, hraw, fun t ht f => mem_fiberNames hn ht, fun f => fiber_mem_nodes hn hraw,
    fun t _ u _ => clash_iff, fun hclash t ht f hf => ?_⟩
  have hone : ∀ u ∈ p.tensors, (∃ c, Stands p u c ∧ c.fiber = f) → u = t := by
    intro u hu hc
    by_contra hne
    exact hclash u hu t ht hne (clash_iff.1 ⟨f, (mem_fiberNames hn hu).2 hc, hf⟩)
  refine ⟨fun n he => ?_, fun m he => ?_⟩
  · obtain ⟨u, hu, hd⟩ := exists_depends hn hraw he (.inr (.inl rfl))
    exact hone u hu hd.to_fiber ▸ hd
  · obtain ⟨u, hu, hd⟩ := exists_depends hn hraw he (.inl rfl)
    rcases hd.of_fiber with hc | ⟨x, s, hs, hdyn, hne, hfiber, hm⟩
    · exact .inl (hone u hu hc ▸ hd)
    · obtain ⟨l, hl, hroot, c, d, hx, hc⟩ := exists_leader hn hs hdyn
      have hlt : l = t := hone l hl ⟨c, hx.1, hc.trans hfiber.symm⟩
      subst hlt
      rw [← hroot] at hne hfiber
      exact .inr ⟨u, hu, fun heq => hne (by rw [heq]), x, s, hs, hroot.symm, hfiber, hm⟩

/-- In the program with two steps no fiber is shared: all that produces the fiber for which the follower waits belongs
to its leader. -/
theorem fibers_shared_twoSteps : twoSteps.Validated ∧ (∀ t ∈ twoSteps.tensors, ∀ u ∈ twoSteps.tensors, t ≠ u →
    ¬ Clash twoSteps t u) ∧ ∃ raw, twoSteps.graph = .ok raw ∧ .fiber "a_k2" ∈ raw.nodes ∧
    ∀ n, raw.Edge n (.fiber "a_k2") → Depends twoSteps ⟨"A", some ["K", "M"]⟩ n (.fiber "a_k2") := by
  obtain ⟨raw, hraw, -, hnodes, hclash, hown⟩ := fibers_shared_iff validated_twoSteps
  have hdisjoint : ∀ t ∈ twoSteps.tensors, ∀ u ∈ twoSteps.tensors, t ≠ u →
      ¬ ∃ f, f ∈ fiberNames twoSteps t ∧ f ∈ fiberNames twoSteps u := by decide +kernel
  have hnone : ∀ t ∈ twoSteps.tensors, ∀ u ∈ twoSteps.tensors, t ≠ u → ¬ Clash twoSteps t u :=
    fun t ht u hu hne hc => hdisjoint t ht u hu hne ((hclash t ht u hu).2 hc)
  refine ⟨validated_twoSteps, hnone, raw, hraw, (hnodes _).2 (by decide +kernel), ?_⟩
  exact (hown hnone _ List.mem_cons_self _ (by decide +kernel)).1

/-- A program with two tensors whose names differ in their capitals only. -/
def twins : Program := ⟨[⟨"A", some ["K"]⟩, ⟨"a", some ["K"]⟩], "A", ["K"], RuleSet.empty⟩

/-- The dependencies of this program. -/
def twinsEdges : List Dependency :=
  [(output, graphics), (graphics, startLoop), (startLoop, .loop "K"), (.loop "K", body), (body, footer),
   (output, .tensor "A"),
   (.tensor "A", .rank "A" "K"), (.tensor "A", .ofSwizzle "A" ["K"]), (.ofSwizzle "A" ["K"], .fiber "a_k"),
   (.rank "A" "K", .ofSwizzle "A" ["K"]), (.fiber "a_k", .loop "K"), (.loop "K", .fiber "a_ref"),
   (.fiber "a_ref", body),
   (.tensor "a", .rank "a" "K"), (.tensor "a", .ofSwizzle "a" ["K"]), (.ofSwizzle "a" ["K"], .fiber "a_k"),
   (.rank "a" "K", .ofSwizzle "a" ["K"]), (.fiber "a_k", .loop "K"), (.loop "K", .fiber "a_val"),
   (.fiber "a_val", body)]

/-- **Two different tensors can have a fiber in common**: both walks come to it, and it has the roots of both among its
parents. -/
theorem fiber_shared_twins : twins.Validated ∧ ∃ raw t u c d, twins.graph = .ok raw ∧ t ∈ twins.tensors ∧
    u ∈ twins.tensors ∧ t ≠ u ∧ Stands twins t c ∧ Stands twins u d ∧ c.fiber = "a_k" ∧ d.fiber = "a_k" ∧
    raw.parents (.fiber "a_k") = [.ofSwizzle "A" ["K"], .ofSwizzle "a" ["K"]] := by
  have hprob : twins.problem? = none := by decide +kernel
  have hv : twins.Validated := .of_problem? hprob rfl
  have hedges : edges twins = .ok twinsEdges := by cbv
  have hraw : twins.graph = .ok (Graph.empty.addEdges twinsEdges) := by
    rw [Program.graph, hedges]
    rfl
  have ht : (⟨"A", some ["K"]⟩ : Tensor) ∈ twins.tensors := List.mem_cons_self
  have hu : (⟨"a", some ["K"]⟩ : Tensor) ∈ twins.tensors := List.mem_cons_of_mem _ List.mem_cons_self
  obtain ⟨c, hc, hfc⟩ := (mem_fiberNames (f := "a_k") hv.named ht).1 (by decide +kernel)
  obtain ⟨d, hd, hfd⟩ := (mem_fiberNames (f := "a_k") hv.named hu).1 (by decide +kernel)
  exact ⟨hv, _, _, _, c, d, hraw, ht, hu, by decide, hc, hd, hfc, hfd, by decide +kernel⟩

end Wiring
end LoopNest
