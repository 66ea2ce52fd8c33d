import LoopNest.Proofs.Flow.Levels
/-!
# Proofs.Flow.Rerooting — the order around a split inside the loops

Where a walk meets a split, the tensor is made anew from its fiber, partitioned, and its root is taken with the ranks
that it then has.  The fibers tie this to the loops: what was consumed reaches the fiber at which the walk stands
(`Stands.path_consumed`), and from there every rank that is no longer split is reached at its own fiber, at which its
loop is entered (`Stands.reaches_pending`).  A follower waits for the leader's fiber at the outer part, and the leader
comes to it only after it has made the split itself: it meets every split of a rule whose rank it has (`exists_meets`).
So the plan has all these operations in one order (`plan_reroots`).
-/
namespace LoopNest
namespace Wiring

variable {p : Program} {t : Tensor} {x r : String} {s : Split} {c d f : Cursor} {es fs : List Dependency}
  {raw : Graph Node} {a b : Node}

/-- **A walk meets every dynamic split of a rule, from a pending rank that the rule splits.** -/
theorem Trip.exists_meets (hp : p.Named) (ht : t ∈ p.tensors) (htrip : Trip p c es f) (hnil : f.pending = [])
    (hc : Stands p t c) (hs : p.rules.split? x = some s) (hdyn : s.step.isDynamic = true) :
    ∀ {y s'}, y ∈ c.pending → p.rules.split? y = some s' → s'.rule = s.rule → s'.index ≤ s.index →
      ∃ b d, Meets p t x b d := by
  induction htrip with
  | stay => intro y s' hy; rw [hnil] at hy; cases hy
  | @go c d _ es fs hm _ ih =>
    intro y s' hy hs' hr hi
    have ih := @ih hnil (hc.move hm)
    rcases hc.enters_or_meets hm with ⟨z, hz⟩ | ⟨z, hz⟩
    · obtain ⟨rest, hpend, rfl⟩ := Cursor.pop?_eq_some.1 hz.2.1
      rw [hpend] at hy
      rcases List.mem_cons.1 hy with rfl | hy
      · have hdyn' := hz.2.2
        rw [RuleSet.isDynamic, hs', Option.any_some, hp.coherent.isDynamic_eq hs hs' hr, hdyn] at hdyn'
        cases hdyn'
      · exact ih hy hs' hr hi
    · obtain ⟨s'', rest, hs'', -, hpend, hperm, -⟩ := hz.exists_split hp ht
      rw [hpend] at hy
      rcases List.mem_cons.1 hy with rfl | hy
      · rw [hs'] at hs''
        cases hs''
        rcases Nat.lt_or_eq_of_le hi with hlt | heq
        · have hlast : s'.index + 1 ≠ s'.rule.steps.length := by
            have := Split.index_lt (hp.coherent.split?_eq_some_iff.1 hs).2.1
            rw [hr]
            omega
          obtain ⟨u, hu, hur, hui⟩ := hp.coherent.split?_inner hs' hlast
          exact ih (hperm.mem_iff.2 (List.mem_append_left _ (Split.mem_pair.2 (.inr rfl)))) hu (hur.trans hr) (by omega)
        · have hsource : s'.source = s.source := by rw [Split.source, Split.source, hr, heq]
          rw [(hp.coherent.split?_eq_some_iff.1 hs').2.2, (hp.coherent.split?_eq_some_iff.1 hs).2.2] at hsource
          exact ⟨c, d, hsource ▸ hz⟩
      · exact ih (hperm.mem_iff.2 (List.mem_append_right _ hy)) hs' hr hi

/-- **A tensor that has the rank of a rule meets every dynamic split of it.** -/
theorem exists_meets (hp : p.Named) (ht : t ∈ p.tensors) (hs : p.rules.split? x = some s)
    (hdyn : s.step.isDynamic = true) (hrank : s.rule.rank ∈ t.ranks) : ∃ c d, Meets p t x c d := by
  obtain ⟨start, hopens⟩ := exists_opens hp.toConsistent ht
  obtain ⟨es, last, htrip, hnil⟩ := hopens.stands.exists_end hp ht
  obtain ⟨s', hs', hr', hi'⟩ := hp.coherent.split?_rank hs
  have hstatic : p.rules.isStatic s.rule.rank = false := by
    refine RuleSet.isStatic_of_isDynamic ?_
    rw [hp.coherent.isDynamic_rank hs, hdyn]
  have hmem : s.rule.rank ∈ start.pending := by
    refine (hopens.pending_perm hp.toConsistent ht).1.mem_iff.2 (List.mem_flatMap.2 ⟨_, hrank, ?_⟩)
    rw [opened, hstatic]
    exact List.mem_singleton.2 rfl
  exact htrip.exists_meets hp ht hnil hopens.stands hs hdyn hmem hs' hr' (by omega)

section
variable (hp : p.Named) (hraw : p.graph = .ok raw) (ht : t ∈ p.tensors)
include hp hraw ht

theorem edge_of_depends (hd : Depends p t a b) : raw.Edge a b := (edge_iff hp hraw).2 (.inr (.inr ⟨t, ht, hd⟩))

/-! ## Paths along a walk -/

theorem Meets.path_swizzle (hm : Meets p t x c d) :
    raw.Path (.ofPart t.root [x]) (.ofSwizzle t.root d.pending) := by
  obtain ⟨s, rest, hs, hdyn, hpend, hperm, -⟩ := hm.exists_split hp ht
  have hx := (hm.1.onTrack hp ht).obtained x (by rw [hpend]; exact List.mem_cons_self)
  have hrank := hx.rule_declared hp.toConsistent ht hs
  have houter : s.outer ∈ s.pair := Split.mem_pair.2 (.inl rfl)
  have hmade := edge_of_depends hp hraw ht (.rank hrank (.split hs hdyn rfl (.made houter)))
  have htaken := edge_of_depends hp hraw ht
    (.rankTaken (.inr ⟨x, c, hm⟩) (hperm.mem_iff.2 (List.mem_append_left _ houter)))
  exact hmade.path.trans htaken.path

theorem Stands.path_move (hc : Stands p t c) (hm : Move p c es d) :
    raw.Path (.fiber c.fiber) (.fiber d.fiber) := by
  rcases hc.enters_or_meets hm with ⟨x, hx⟩ | ⟨x, hx⟩
  · exact (edge_of_depends hp hraw ht (.enter hx)).path.trans (edge_of_depends hp hraw ht (.next hx)).path
  · have hremade := edge_of_depends hp hraw ht (.remade hx)
    have hcut := edge_of_depends hp hraw ht (.cut hx)
    have hroot := edge_of_depends hp hraw ht (.root (.inr ⟨x, c, hx⟩))
    exact ((hremade.path.trans hcut.path).trans (hx.path_swizzle hp hraw ht)).trans hroot.path

/-- **The loops that a walk has entered reach the fiber at which it stands.** -/
theorem Stands.path_consumed (hc : Stands p t c) : ∀ r ∈ c.consumed, raw.Path (.loop r) (.fiber c.fiber) := by
  refine hc.induction (P := fun c => ∀ r ∈ c.consumed, raw.Path (.loop r) (.fiber c.fiber))
    (fun c hopens r hr => ?_) fun c es d hc ih hm r hr => ?_
  · rw [(hopens.onTrack hp.toConsistent ht).2] at hr
    cases hr
  rcases hc.enters_or_meets hm with ⟨x, hx⟩ | ⟨x, hx⟩
  · have hnext := edge_of_depends hp hraw ht (.next hx)
    have hconsumed : d.consumed = c.consumed ++ [x] := by
      obtain ⟨rest, -, rfl⟩ := Cursor.pop?_eq_some.1 hx.2.1
      rfl
    rw [hconsumed, List.mem_append, List.mem_singleton] at hr
    rcases hr with hr | rfl
    · exact (ih r hr).trans (hc.path_move hp hraw ht hm)
    · exact hnext.path
  · obtain ⟨-, -, -, -, -, -, -, hd, -⟩ := hx.exists_split hp ht
    rw [hd] at hr
    exact (ih r hr).trans (hc.path_move hp hraw ht hm)

/-- **A walk comes to every pending rank that is no longer split**: to its fiber, at which its loop is entered. -/
theorem Stands.reaches_pending (hc : Stands p t c) (hr : r ∈ c.pending) (hun : p.rules.isPartitioned r = false) :
    Relation.ReflTransGen raw.Edge (.fiber c.fiber) (.fiber (fiberName t.root r)) ∧
      raw.Edge (.fiber (fiberName t.root r)) (.loop r) := by
  obtain ⟨es, last, htrip, hnil⟩ := hc.exists_end hp ht
  induction htrip with
  | stay => rw [hnil] at hr; cases hr
  | @go c d _ es fs hm _ ih =>
    have hstep := (hc.path_move hp hraw ht hm).to_reflTransGen
    rcases hc.enters_or_meets hm with ⟨x, hx⟩ | ⟨x, hx⟩
    · obtain ⟨rest, hpend, hd⟩ := Cursor.pop?_eq_some.1 hx.2.1
      have hfiber : c.fiber = fiberName t.root x := by
        rw [Cursor.fiber, hpend, (hc.onTrack hp ht).root]
      rw [hpend] at hr
      rcases List.mem_cons.1 hr with rfl | hr
      · have henter := edge_of_depends hp hraw ht (.enter hx)
        rw [hfiber] at henter ⊢
        exact ⟨.refl, henter⟩
      · obtain ⟨hpath, henter⟩ := ih (hc.move hm) (by rw [hd]; exact hr) hnil
        exact ⟨hstep.trans hpath, henter⟩
    · obtain ⟨s, rest, hs, -, hpend, hperm, -⟩ := hx.exists_split hp ht
      rw [hpend] at hr
      rcases List.mem_cons.1 hr with rfl | hr
      · rw [RuleSet.isPartitioned, hs] at hun
        cases hun
      · obtain ⟨hpath, henter⟩ := ih (hc.move hm) (hperm.mem_iff.2 (List.mem_append_right _ hr)) hnil
        exact ⟨hstep.trans hpath, henter⟩

theorem Meets.path_loop (hm : Meets p t x c d) (hr : r ∈ d.pending) (hun : p.rules.isPartitioned r = false) :
    raw.Path (.ofSwizzle t.root d.pending) (.fiber (fiberName t.root r)) ∧
      raw.Path (.ofSwizzle t.root d.pending) (.loop r) := by
  have htakes : Takes p t d := .inr ⟨x, c, hm⟩
  obtain ⟨hpath, henter⟩ := htakes.stands.reaches_pending hp hraw ht hr hun
  have hfiber := (edge_of_depends hp hraw ht (.root htakes)).path.trans_left hpath
  exact ⟨hfiber, hfiber.trans henter.path⟩

end

/-- **A follower waits for its leader**, which has met the same split and taken its root. -/
theorem Meets.path_led (hp : p.Named) (hraw : p.graph = .ok raw) (ht : t ∈ p.tensors) (hm : Meets p t x c d)
    {l : Tensor} (hl : l ∈ p.tensors) (hroot : l.root = p.rules.leader x) (hne : p.rules.leader x ≠ t.root)
    {b f : Cursor} (hml : Meets p l x b f) :
    raw.Path (.ofSwizzle l.root f.pending) (.ofPart t.root [x]) := by
  obtain ⟨s, rest, hs, hdyn, hpend, -⟩ := hm.exists_split hp ht
  have hx := (hm.1.onTrack hp ht).obtained x (by rw [hpend]; exact List.mem_cons_self)
  have hleader : p.rules.leader x = s.step.leader := by rw [RuleSet.leader, hs]; rfl
  rw [hleader] at hroot hne
  have hled := edge_of_depends hp hraw ht
    (.rank (hx.rule_declared hp.toConsistent ht hs) (.split hs hdyn rfl (.led hne)))
  obtain ⟨s', _, hs', -, -, hperm, -⟩ := hml.exists_split hp hl
  rw [hs] at hs'
  cases hs'
  have houter : s.outer ∈ f.pending := hperm.mem_iff.2 (List.mem_append_left _ (Split.mem_pair.2 (.inl rfl)))
  have hun : p.rules.isPartitioned s.outer = false := by
    rw [RuleSet.isPartitioned, Program.unsplit_outer hp.coherent hs]
    rfl
  have hfiber := (hml.path_loop hp hraw hl houter hun).1
  rw [hroot] at hfiber ⊢
  exact hfiber.trans hled.path

/-- **The order around a split inside the loops.**  Where the walk of a tensor meets a split, at `c`, and goes on with
the ranks of `d`, the plan has in this order: the loops that the walk has entered before, the tensor made anew from its
fiber, its partitioning, its root taken with the ranks of `d`, and the loops over those of them that are no longer
split.  If another tensor leads the split, it meets the split too, and its partitioning and the root that it takes then
come before the partitioning of the follower. -/
theorem plan_reroots {plan : Plan} (hp : p.Validated) (hplan : p.plan = .ok plan) (ht : t ∈ p.tensors)
    (hm : Meets p t x c d) : plan.order.Nodup ∧
    (∀ r ∈ c.consumed, [.loop r, .fromFiber t.root x].Sublist plan.order) ∧
    [.fromFiber t.root x, .ofPart t.root [x]].Sublist plan.order ∧
    [.ofPart t.root [x], .ofSwizzle t.root d.pending].Sublist plan.order ∧
    (∀ r ∈ d.pending, p.rules.isPartitioned r = false →
      [.ofSwizzle t.root d.pending, .loop r].Sublist plan.order) ∧
    (p.rules.leader x ≠ t.root → ∃ l ∈ p.tensors, l.root = p.rules.leader x ∧ (∃ b f, Meets p l x b f) ∧
      ∀ b f, Meets p l x b f → [.ofPart l.root [x], .ofPart t.root [x]].Sublist plan.order ∧
        [.ofSwizzle l.root f.pending, .ofPart t.root [x]].Sublist plan.order) := by
  have hn := hp.named
  obtain ⟨raw, hraw, -⟩ := hp.consistent.graph_total
  have hbefore : ∀ {a b : Node}, a.isBookkeeping = false → b.isBookkeeping = false → a ≠ b → raw.Path a b →
      [a, b].Sublist plan.order := fun ha hb hab hpath => Program.before_of_path hplan hraw ha hb hab hpath
  have hremade := edge_of_depends hn hraw ht (.remade hm)
  refine ⟨?_, fun r hr => ?_, ?_, ?_, fun r hr hun => ?_, fun hne => ?_⟩
  · exact (Program.topological_of_plan hplan hraw).nodup ((Program.wellFormed_of_graph hraw).contract _)
  · exact hbefore rfl rfl (by simp) ((hm.1.path_consumed hn hraw ht r hr).trans hremade.path)
  · exact hbefore rfl rfl (by simp [Node.ofPart]) (edge_of_depends hn hraw ht (.cut hm)).path
  · exact hbefore rfl rfl (by simp [Node.ofPart, Node.ofSwizzle]) (hm.path_swizzle hn hraw ht)
  · exact hbefore rfl rfl (by simp [Node.ofSwizzle]) (hm.path_loop hn hraw ht hr hun).2
  · obtain ⟨s, rest, hs, hdyn, -⟩ := hm.exists_split hn ht
    obtain ⟨hr, hstep, -⟩ := hn.coherent.split?_eq_some_iff.1 hs
    obtain ⟨l, hl, hroot, hrank⟩ := hn.leads s.rule hr s.step (List.mem_of_getElem? hstep) hdyn
    have hleader : l.root = p.rules.leader x := by rw [hroot, RuleSet.leader, hs]; rfl
    refine ⟨l, hl, hleader, exists_meets hn hl hs hdyn hrank, fun b f hml => ?_⟩
    have hled := hm.path_led hn hraw ht hl hleader hne hml
    refine ⟨hbefore rfl rfl (fun heq => ?_) ((hml.path_swizzle hn hraw hl).trans hled),
      hbefore rfl rfl (by simp [Node.ofPart, Node.ofSwizzle]) hled⟩
    exact hne (hleader.symm.trans (Node.part.inj heq).1)

theorem exists_plan_twoSteps : ∃ plan, twoSteps.plan = .ok plan :=
  wellOrdered_twoSteps.exists_plan validated_twoSteps

theorem exists_of_map_snd {m : Except Problem (List Dependency × Cursor)} (h : m.map Prod.snd = .ok c) :
    ∃ es, m = .ok (es, c) := by
  cases m with
  | error e => cases h
  | ok r => cases h; exact ⟨r.1, rfl⟩

/-- Where the follower meets the second step, it has entered one loop. -/
theorem meets_twoSteps : Meets twoSteps ⟨"B", some ["K"]⟩ "K1I" ⟨"B", ["K"], ["K2"], ["K1I"], true, true⟩
    ⟨"B", ["K"], ["K2"], ["K1", "K0"], true, true⟩ := by
  obtain ⟨-, -, hpart, hfirst, houter, hsecond⟩ := evaluated_twoSteps
  obtain ⟨ranks, hranks⟩ := exists_of_map_snd hpart
  have hopens : Opens twoSteps ⟨"B", some ["K"]⟩ ⟨"B", ["K"], [], ["K"], true, false⟩ :=
    ⟨ranks, _, hranks, by cbv⟩
  obtain ⟨first, hmeet⟩ := exists_of_map_snd (c := ⟨"B", ["K"], [], ["K2", "K1I"], true, true⟩)
    (m := meetSplit twoSteps ⟨"B", ["K"], [], ["K"], true, false⟩ "K") (by cbv)
  have hstands := (hopens.stands.move (.split rfl hfirst hmeet)).move (.loop rfl houter)
  have hmeet' := exists_of_map_snd (c := ⟨"B", ["K"], ["K2"], ["K1", "K0"], true, true⟩)
    (m := meetSplit twoSteps ⟨"B", ["K"], ["K2"], ["K1I"], true, true⟩ "K1I") (by cbv)
  exact ⟨hstands, rfl, hsecond, hmeet'⟩

/-- **The second step of the follower**: it is made anew inside the loop over the outermost part, is partitioned after
its leader, and enters the loops over the inner parts after that. -/
theorem plan_reroots_twoSteps : twoSteps.Validated ∧ ∃ plan, twoSteps.plan = .ok plan ∧
    ⟨"B", some ["K"]⟩ ∈ twoSteps.tensors ∧
    [.loop "K2", .fromFiber "B" "K1I"].Sublist plan.order ∧
    [.fromFiber "B" "K1I", .ofPart "B" ["K1I"]].Sublist plan.order ∧
    [.ofPart "B" ["K1I"], .ofSwizzle "B" ["K1", "K0"]].Sublist plan.order ∧
    [.ofSwizzle "B" ["K1", "K0"], .loop "K1"].Sublist plan.order ∧
    [.ofPart "A" ["K1I"], .ofPart "B" ["K1I"]].Sublist plan.order := by
  have ht : (⟨"B", some ["K"]⟩ : Tensor) ∈ twoSteps.tensors := List.mem_cons_of_mem _ List.mem_cons_self
  have hleader : twoSteps.rules.leader "K1I" = "A" := by decide +kernel
  obtain ⟨plan, hplan⟩ := exists_plan_twoSteps
  obtain ⟨-, hconsumed, hremade, htaken, hloops, hled⟩ := plan_reroots validated_twoSteps hplan ht meets_twoSteps
  obtain ⟨l, -, hroot, ⟨b, f, hml⟩, hall⟩ := hled (by rw [hleader]; decide)
  have hpart := (hall b f hml).1
  rw [hroot, hleader] at hpart
  exact ⟨validated_twoSteps, plan, hplan, ht, hconsumed "K2" List.mem_cons_self, hremade, htaken,
    hloops "K1" List.mem_cons_self (by decide +kernel), hpart⟩

end Wiring
end LoopNest
