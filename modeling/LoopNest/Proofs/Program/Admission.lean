import LoopNest.Proofs.Flow.Walking
/-!
# Proofs.Program.Admission — which programs are made

The checks on a program look names up in its rules and tensors.  `WellStated` says the same of the lists themselves:
what is listed, what may not be listed, and that nothing is listed twice.  For rules that were added one by one a
program is made exactly if it is well stated (`make_iff_wellStated`): a rank with a rule is split into the final ranks of
that rule, and a declared rank without one is not split, because no tensor declares a rank between two splits.
-/
namespace LoopNest

/-- A letter and then letters, digits and underscores, 64 bytes at most. -/
def Identifier.Valid (x : String) : Prop :=
  (∃ c cs, x.toList = c :: cs ∧ isLetter c = true ∧
    ∀ d ∈ cs, isLetter d = true ∨ Text.isDecimalDigit d = true ∨ d = '_') ∧ x.utf8ByteSize ≤ 64

theorem Identifier.problem?_eq_none_iff_valid {of : Subject} {x : String} :
    Identifier.problem? of x = none ↔ Identifier.Valid x := by
  rw [problem?_eq_none_iff, Valid]
  refine and_congr_left fun _ => ?_
  cases x.toList with
  | nil => simp [isWord]
  | cons c cs => simp [isWord, isTail, or_assoc]

namespace Program

theorem Validated.offered {p : Program} (hp : p.Validated) : p.rules.Offered := by
  obtain ⟨⟨rs, hrs⟩, -⟩ := hp
  exact ⟨rs, RuleSet.foldl_offer_of_addAll rs hrs⟩

/-- **What a program has to be like.** -/
structure WellStated (p : Program) : Prop where
  tensors_ne_nil : p.tensors ≠ []
  root_valid : ∀ t ∈ p.tensors, Identifier.Valid t.root
  rank_valid : ∀ t ∈ p.tensors, ∀ x ∈ t.ranks, Identifier.Valid x
  loop_valid : ∀ x ∈ p.loops, Identifier.Valid x
  nodup_roots : (p.tensors.map Tensor.root).Nodup
  nodup_ranks : ∀ t ∈ p.tensors, t.ranks.Nodup
  output_declared : ∃ t ∈ p.tensors, t.root = p.output
  loops_ne_nil : p.loops ≠ []
  nodup_loops : p.loops.Nodup
  loop_unsplit : ∀ x ∈ p.loops, ∀ r ∈ p.rules.rules, x ≠ r.rank ∧ x ∉ r.intermediates
  rule_used : ∀ r ∈ p.rules.rules, ∃ t ∈ p.tensors, r.rank ∈ t.ranks
  underived : ∀ r ∈ p.rules.rules, ∀ t ∈ p.tensors, ∀ x ∈ t.ranks, x ∉ r.finalNames ∧ x ∉ r.intermediates
  leader_declared : ∀ r ∈ p.rules.rules, ∀ u ∈ r.steps, u.isDynamic = true →
    ∃ t ∈ p.tensors, t.root = u.leader ∧ r.rank ∈ t.ranks
  loop_of_rank : ∀ t ∈ p.tensors, ∀ x ∈ t.ranks, (∀ r ∈ p.rules.rules, r.rank ≠ x) → x ∈ p.loops
  loops_of_rule : ∀ t ∈ p.tensors, ∀ x ∈ t.ranks, ∀ r ∈ p.rules.rules, r.rank = x → ∀ f ∈ r.finalNames, f ∈ p.loops

variable {p : Program} {x : String}

theorem split?_eq_none_iff_unlisted (hp : p.rules.Coherent) :
    p.rules.split? x = none ↔ ∀ r ∈ p.rules.rules, x ≠ r.rank ∧ x ∉ r.intermediates := by
  rw [RuleSet.split?_eq_none_iff, RuleSet.mem_sources hp.steps_ne_nil]
  simp only [List.mem_cons, not_exists, not_and, not_or, ne_eq]

/-- The ranks that the rank of a rule becomes in the end are the final ranks of the rule. -/
theorem loopsFor_rank (hp : p.rules.Coherent) {r : Rule} (hr : r ∈ p.rules.rules) : p.loopsFor r.rank = r.finalNames := by
  obtain ⟨s, hs, rfl, hi⟩ := hp.split?_of_mem hr
  rw [loopsFor_of_split hs, Split.finals, hi, List.drop_zero]

theorem covered_iff (hp : p.rules.Coherent) (hx : ∀ r ∈ p.rules.rules, x ∉ r.intermediates) : p.Covered x ↔
    ((∀ r ∈ p.rules.rules, r.rank ≠ x) → x ∈ p.loops) ∧
    ∀ r ∈ p.rules.rules, r.rank = x → ∀ f ∈ r.finalNames, f ∈ p.loops := by
  constructor
  · intro h
    refine ⟨fun hrank => h.mem_loops ((split?_eq_none_iff_unlisted hp).2 fun r hr => ⟨(hrank r hr).symm, hx r hr⟩), ?_⟩
    rintro r hr rfl f hf
    exact h f (by rwa [loopsFor_rank hp hr])
  · rintro ⟨hown, hrule⟩ f hf
    by_cases hrank : ∃ r ∈ p.rules.rules, r.rank = x
    · obtain ⟨r, hr, rfl⟩ := hrank
      rw [loopsFor_rank hp hr] at hf
      exact hrule r hr rfl f hf
    · have hnone : ∀ r ∈ p.rules.rules, r.rank ≠ x := fun r hr heq => hrank ⟨r, hr, heq⟩
      have hunsplit := (split?_eq_none_iff_unlisted hp).2 fun r hr => ⟨(hnone r hr).symm, hx r hr⟩
      rw [loopsFor_of_unsplit hunsplit, List.mem_singleton] at hf
      exact hf ▸ hown hnone

theorem WellStated.of_problem? (hp : p.rules.Coherent) (h : p.problem? = none) : p.WellStated := by
  obtain ⟨hne, ⟨hfit, hroots⟩, hout, hloops, hloop, hnd, hrules, hcov⟩ := problem?_eq_none_iff.1 h
  have hderived : ∀ r ∈ p.rules.rules, ∀ t ∈ p.tensors, ∀ x ∈ t.ranks, x ∉ r.finalNames ∧ x ∉ r.intermediates := by
    intro r hr t ht x hx
    rw [← not_or, ← List.mem_append]
    exact fun hmem => (hrules r hr).2.1 x hmem t ht hx
  have hcovered : ∀ t ∈ p.tensors, ∀ x ∈ t.ranks, _ := fun t ht x hx =>
    (covered_iff hp fun r hr => (hderived r hr t ht x hx).2).1 (hcov t ht x hx)
  exact {
    tensors_ne_nil := hne
    root_valid := fun t ht => Identifier.problem?_eq_none_iff_valid.1 (hfit t ht).1
    rank_valid := fun t ht x hx => Identifier.problem?_eq_none_iff_valid.1 ((hfit t ht).2.1 x hx)
    loop_valid := fun x hx => Identifier.problem?_eq_none_iff_valid.1 (hloop x hx).1
    nodup_roots := hroots
    nodup_ranks := fun t ht => (hfit t ht).2.2
    output_declared := by
      obtain ⟨t, ht⟩ := Option.isSome_iff_exists.1 hout
      exact ⟨t, (tensor?_eq_some_iff hroots).1 ht⟩
    loops_ne_nil := hloops
    nodup_loops := hnd
    loop_unsplit := fun x hx => (split?_eq_none_iff_unlisted hp).1 (hloop x hx).2
    rule_used := fun r hr => (hrules r hr).1
    underived := hderived
    leader_declared := by
      intro r hr u hu hdyn
      obtain ⟨t, ht, hrank⟩ := (hrules r hr).2.2 u hu hdyn
      obtain ⟨hmem, hroot⟩ := (tensor?_eq_some_iff hroots).1 ht
      exact ⟨t, hmem, hroot, hrank⟩
    loop_of_rank := fun t ht x hx => (hcovered t ht x hx).1
    loops_of_rule := fun t ht x hx => (hcovered t ht x hx).2 }

theorem WellStated.problem?_eq_none (hp : p.rules.Coherent) (h : p.WellStated) : p.problem? = none := by
  refine problem?_eq_none_iff.2 ⟨h.tensors_ne_nil, ⟨fun t ht => ?_, h.nodup_roots⟩, ?_, h.loops_ne_nil, fun x hx => ?_,
    h.nodup_loops, fun r hr => ⟨h.rule_used r hr, fun x hx t ht hmem => ?_, fun u hu hdyn => ?_⟩, fun t ht x hx => ?_⟩
  · exact ⟨Identifier.problem?_eq_none_iff_valid.2 (h.root_valid t ht),
      fun x hx => Identifier.problem?_eq_none_iff_valid.2 (h.rank_valid t ht x hx), h.nodup_ranks t ht⟩
  · obtain ⟨t, ht, hroot⟩ := h.output_declared
    exact Option.isSome_of_eq_some ((tensor?_eq_some_iff h.nodup_roots).2 ⟨ht, hroot⟩)
  · exact ⟨Identifier.problem?_eq_none_iff_valid.2 (h.loop_valid x hx),
      (split?_eq_none_iff_unlisted hp).2 (h.loop_unsplit x hx)⟩
  · obtain ⟨hfinal, hbetween⟩ := h.underived r hr t ht x hmem
    exact (List.mem_append.1 hx).elim hfinal hbetween
  · obtain ⟨t, ht, hroot, hrank⟩ := h.leader_declared r hr u hu hdyn
    exact ⟨t, (tensor?_eq_some_iff h.nodup_roots).2 ⟨ht, hroot⟩, hrank⟩
  · refine (covered_iff hp fun r hr => (h.underived r hr t ht x hx).2).2 ?_
    exact ⟨h.loop_of_rank t ht x hx, h.loops_of_rule t ht x hx⟩

/-- **Exactly the well-stated programs are made**, whatever tensors, output and loops are given with rules that were
added one by one. -/
theorem make_iff_wellStated {rules : RuleSet} (hr : rules.Offered) (tensors : List Tensor) (output : String)
    (loops : List String) :
    (∃ p, make tensors output loops rules = .ok p) ↔ WellStated ⟨tensors, output, loops, rules⟩ := by
  have hmake : (∃ p, make tensors output loops rules = .ok p) ↔
      problem? ⟨tensors, output, loops, rules⟩ = none := by
    simp only [make_eq_ok_iff, exists_eq_left]
  rw [hmake]
  exact ⟨WellStated.of_problem? hr.coherent, WellStated.problem?_eq_none hr.coherent⟩

/-- A rank that is split inside the loops by two steps of a leader.  With the loops over its final ranks and over the
other rank the program is well stated; with a loop over the rank between the two steps it is not. -/
theorem make_iff_wellStated_twoSteps : Wiring.twoSteps.rules.Offered ∧ Wiring.twoSteps.WellStated ∧
    ¬ WellStated { Wiring.twoSteps with loops := ["K2", "M", "K1I", "K0"] } := by
  have hr : Wiring.twoSteps.rules.Offered := Wiring.validated_twoSteps.offered
  have hbad : problem? { Wiring.twoSteps with loops := ["K2", "M", "K1I", "K0"] } ≠ none := by decide +kernel
  refine ⟨hr, (make_iff_wellStated hr _ _ _).1 ⟨_, Wiring.validated_twoSteps.2⟩, fun h => ?_⟩
  obtain ⟨q, hq⟩ := (make_iff_wellStated hr _ _ _).2 h
  obtain ⟨rfl, hnone⟩ := make_eq_ok_iff.1 hq
  exact hbad hnone

end Program
end LoopNest
