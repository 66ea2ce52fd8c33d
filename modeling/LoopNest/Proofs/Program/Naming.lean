import LoopNest.Proofs.Node.Tuple
import LoopNest.Proofs.Rules.Acceptance
import LoopNest.Proofs.Program.Validation
/-!
# Proofs.Program.Naming — the ranks of a validated program can be told apart by name

`Named` adds to `Consistent` what the checks say about names: tensors differ by name, no tensor has a rank twice, what
a rule makes is declared by no tensor, and a leader has the rank that it leads.  So the ranks that the declared ranks of
a tensor become in the end are all different (`Named.nodup_loopsFor`).  The ranks on the way there are the `Obtainable`
ones; each is covered, and is a `Plain` word, which a tuple keeps whole (`RankTuple.ofList_of_plain`).
-/
namespace LoopNest

/-! ## Plain words -/

theorem Identifier.isTail_tupleSeparator : Identifier.isTail tupleSeparator = false := by decide

theorem Identifier.plain_of_problem? {of : Subject} {x : String} (h : Identifier.problem? of x = none) : Plain x := by
  have hword := (problem?_eq_none_iff.1 h).1
  cases hx : x.toList with
  | nil => rw [hx] at hword; cases hword
  | cons c cs =>
    rw [hx, isWord, Bool.and_eq_true, List.all_eq_true] at hword
    refine ⟨?_, fun hmem => ?_⟩
    · rintro rfl
      cases hx
    · rw [hx, List.mem_cons] at hmem
      rcases hmem with rfl | hmem
      · exact absurd hword.1 (by decide)
      · have htail := hword.2 _ hmem
        rw [isTail_tupleSeparator] at htail
        cases htail

theorem Plain.append {x y : String} (hx : Plain x) (hy : tupleSeparator ∉ y.toList) : Plain (x ++ y) := by
  refine ⟨fun h => hx.1 ?_, fun h => ?_⟩
  · have hl := congrArg String.toList h
    rw [String.toList_append] at hl
    exact String.toList_eq_nil_iff.1 (List.append_eq_nil_iff.1 hl).1
  · rw [String.toList_append, List.mem_append] at h
    exact h.elim hx.2 hy

theorem separator_not_mem_decimal (i : Nat) : tupleSeparator ∉ (Text.decimal i).toList := by
  intro h
  rw [Text.decimal, String.toList_ofList] at h
  exact absurd (Text.isDecimalDigit_of_mem_decimalDigits i _ h) (by decide)

theorem Plain.of_produces {r : Rule} {x : String} (hr : Plain r.rank) (h : r.produces x = true) : Plain x := by
  rcases Rule.produces_iff.1 h with h | h
  · obtain ⟨-, i, -, rfl⟩ := Rule.mem_finalNames.1 h
    exact hr.append (separator_not_mem_decimal i)
  · obtain ⟨i, -, -, rfl⟩ := Rule.mem_intermediates.1 h
    exact (hr.append (separator_not_mem_decimal i)).append (by decide)

namespace Program

/-! ## Names in a validated program -/

/-- **What the checks on a program say about names.** -/
structure Named (p : Program) : Prop extends p.Consistent where
  separate : p.rules.Separate
  nodup_roots : (p.tensors.map Tensor.root).Nodup
  nodup_ranks : ∀ t ∈ p.tensors, t.ranks.Nodup
  plain_declared : ∀ t ∈ p.tensors, ∀ x ∈ t.ranks, Plain x
  underived : ∀ t ∈ p.tensors, ∀ x ∈ t.ranks, ∀ r ∈ p.rules.rules, r.produces x = false
  used : ∀ r ∈ p.rules.rules, ∃ t ∈ p.tensors, r.rank ∈ t.ranks
  leads : ∀ r ∈ p.rules.rules, ∀ s ∈ r.steps, s.isDynamic = true →
    ∃ t ∈ p.tensors, t.root = s.leader ∧ r.rank ∈ t.ranks

variable {p : Program} {t : Tensor} {x : String} {s : Split}

theorem Validated.named (hp : p.Validated) : p.Named := by
  obtain ⟨⟨rs, hrs⟩, hmake⟩ := id hp
  obtain ⟨-, ⟨hfit, hroots⟩, -, -, -, -, hrules, -⟩ := problem?_eq_none_iff.1 (problem?_of_make hmake)
  refine ⟨hp.consistent, RuleSet.Separate.addAll rs RuleSet.separate_empty hrs, hroots, fun t ht => (hfit t ht).2.2,
    fun t ht x hx => Identifier.plain_of_problem? ((hfit t ht).2.1 x hx), fun t ht x hx r hr => ?_,
    fun r hr => (hrules r hr).1, fun r hr u hu hdyn => ?_⟩
  · rw [← Bool.not_eq_true, Rule.produces_iff, ← List.mem_append]
    exact fun hmem => (hrules r hr).2.1 x hmem t ht hx
  · obtain ⟨t, ht, hx⟩ := (hrules r hr).2.2 u hu hdyn
    obtain ⟨hmem, hroot⟩ := (tensor?_eq_some_iff hroots).1 ht
    exact ⟨t, hmem, hroot, hx⟩

theorem Named.maker?_of_split (hp : p.Named) (hs : p.rules.split? x = some s) {y : String} (hy : y ∈ s.pair) :
    p.rules.maker? y = some s :=
  (hp.coherent.maker?_eq_some_iff hp.separate).2 ⟨by rwa [(hp.coherent.split?_eq_some_iff.1 hs).2.2], hy⟩

theorem Named.maker?_declared (hp : p.Named) (ht : t ∈ p.tensors) (hx : x ∈ t.ranks) : p.rules.maker? x = none := by
  cases hm : p.rules.maker? x with
  | none => rfl
  | some s =>
    obtain ⟨hs, hpair⟩ := (hp.coherent.maker?_eq_some_iff hp.separate).1 hm
    have hproduces := hp.coherent.produces_of_pair hs hpair
    rw [hp.underived t ht x hx _ (hp.coherent.split?_eq_some_iff.1 hs).1] at hproduces
    cases hproduces

/-! ## The ranks that a tensor has in the end -/

theorem nodup_loopsFor_rank (p : Program) (x : String) : (p.loopsFor x).Nodup := by
  cases hs : p.rules.split? x with
  | none => rw [loopsFor_of_unsplit hs]; exact List.nodup_singleton x
  | some s => rw [loopsFor_of_split hs]; exact (Rule.nodup_finalNames s.rule).sublist (List.drop_sublist _ _)

/-- What a declared rank becomes in the end is made by its own rule, unless it stays as it is. -/
theorem Named.mem_loopsFor (hp : p.Named) (ht : t ∈ p.tensors) (hx : x ∈ t.ranks) {f : String}
    (hf : f ∈ p.loopsFor x) : f = x ∨ ∃ r ∈ p.rules.rules, r.rank = x ∧ r.produces f = true := by
  cases hs : p.rules.split? x with
  | none => rw [loopsFor_of_unsplit hs] at hf; exact .inl (List.mem_singleton.1 hf)
  | some s =>
    obtain ⟨hr, -, hsrc⟩ := hp.coherent.split?_eq_some_iff.1 hs
    rw [loopsFor_of_split hs] at hf
    refine .inr ⟨s.rule, hr, ?_, Rule.produces_iff.2 (.inl (List.mem_of_mem_drop hf))⟩
    rw [← hsrc, Split.source, if_pos (hp.index_declared t ht x hx s hs)]

/-- **The ranks that a tensor has in the end are all different.** -/
theorem Named.nodup_loopsFor (hp : p.Named) (ht : t ∈ p.tensors) : (t.ranks.flatMap p.loopsFor).Nodup := by
  refine List.nodup_flatMap.2 ⟨fun x _ => nodup_loopsFor_rank p x, ?_⟩
  refine (hp.nodup_ranks t ht).imp_of_mem ?_
  intro x y hx hy hne f hfx hfy
  rcases hp.mem_loopsFor ht hx hfx with rfl | ⟨r, hr, hrx, hrf⟩ <;>
    rcases hp.mem_loopsFor ht hy hfy with rfl | ⟨r', hr', hry, hrf'⟩
  · exact hne rfl
  · exact Bool.false_ne_true ((hp.underived t ht _ hx r' hr').symm.trans hrf')
  · exact Bool.false_ne_true ((hp.underived t ht _ hy r hr).symm.trans hrf)
  · exact hne (hrx.symm.trans ((congrArg Rule.rank (hp.separate.rule_unique hr hr' hrf hrf')).trans hry))

/-! ## The ranks that a tensor can have -/

/-- **A rank that splits can make from the declared ranks of a tensor**, these among them. -/
inductive Obtainable (p : Program) (t : Tensor) : String → Prop where
  | declared {x : String} : x ∈ t.ranks → Obtainable p t x
  | made {x y : String} {s : Split} : Obtainable p t x → p.rules.split? x = some s → y ∈ s.pair → Obtainable p t y

/-- A list that has the declared ranks and is closed under splits has all obtainable ranks. -/
theorem Obtainable.mem_of_closed {l : List String} (h0 : ∀ x ∈ t.ranks, x ∈ l)
    (hc : ∀ x ∈ l, ∀ s ∈ p.rules.split? x, ∀ y ∈ s.pair, y ∈ l) (h : Obtainable p t x) : x ∈ l := by
  induction h with
  | declared hx => exact h0 _ hx
  | made _ hs hy ih => exact hc _ ih _ hs _ hy

theorem Obtainable.covered (hp : p.Consistent) (ht : t ∈ p.tensors) (h : Obtainable p t x) : p.Covered x := by
  induction h with
  | declared hx => exact hp.covered t ht _ hx
  | made _ hs hy ih => exact ih.pair hp.coherent hs _ hy

/-- The rule that splits an obtainable rank is that of a declared one. -/
theorem Obtainable.rule_declared (hp : p.Consistent) (ht : t ∈ p.tensors) (h : Obtainable p t x)
    (hs : p.rules.split? x = some s) : s.rule.rank ∈ t.ranks := by
  induction h generalizing s with
  | declared hx =>
    have hsrc := (hp.coherent.split?_eq_some_iff.1 hs).2.2
    rw [Split.source, if_pos (hp.index_declared t ht _ hx s hs)] at hsrc
    rwa [hsrc]
  | made _ hs' hy ih => rw [hp.coherent.rule_of_pair hs' hy hs]; exact ih hs'

/-- Every rank that the rule of a declared rank splits is obtainable. -/
theorem Obtainable.of_rule (hp : p.Consistent) (hs : p.rules.split? x = some s) (hrank : s.rule.rank ∈ t.ranks) :
    Obtainable p t x := by
  have hlead : ∀ {y}, Relation.ReflTransGen p.rules.SplitsTo s.rule.rank y → Obtainable p t y := by
    intro y h
    induction h with
    | refl => exact .declared hrank
    | tail _ h ih =>
      obtain ⟨s', hs', hy⟩ := RuleSet.splitsTo_iff.1 h
      exact .made ih hs' hy
  exact hlead (hp.coherent.splits_to_source hs)

theorem Obtainable.plain (hp : p.Named) (ht : t ∈ p.tensors) (h : Obtainable p t x) : Plain x := by
  cases h with
  | declared hx => exact hp.plain_declared t ht x hx
  | made _ hs hy =>
    obtain ⟨u, hu, hrank⟩ := hp.used _ (hp.coherent.split?_eq_some_iff.1 hs).1
    exact (hp.plain_declared u hu _ hrank).of_produces (hp.coherent.produces_of_pair hs hy)

end Program
end LoopNest
