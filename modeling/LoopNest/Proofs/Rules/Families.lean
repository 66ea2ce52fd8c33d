import Mathlib.Data.List.Pairwise
import LoopNest.Proofs.Rules.Coherence
/-!
# Proofs.Rules.Families — which split makes a rank

A rank that some rule produces is made by one split only: two splits of one rule make different ranks, because their
numbers differ (`Split.eq_of_mem_pair`), and two rules produce different ranks, because each addition checks the new
names against all older ones (`Separate`).
-/
namespace LoopNest

theorem finalName_injective (rank : String) : Function.Injective (finalName rank) := by
  intro i j h
  have hl := congrArg String.toList h
  rw [toList_finalName, toList_finalName] at hl
  exact Text.decimalDigits_injective (List.append_cancel_left hl)

theorem Rule.nodup_finalNames (r : Rule) : r.finalNames.Nodup := by
  unfold Rule.finalNames
  split
  · exact List.nodup_nil
  · exact (List.nodup_reverse.2 List.nodup_range).map (finalName_injective r.rank)

namespace Split

variable {s s' : Split} {x : String}

theorem mem_pair : x ∈ s.pair ↔ x = s.outer ∨ x = s.inner := by
  simp [pair]

/-- **Two splits of one rule that make the same rank are the same split.** -/
theorem eq_of_mem_pair (hr : s'.rule = s.rule) (hs : s.rule.steps[s.index]? = some s.step)
    (hs' : s.rule.steps[s'.index]? = some s'.step) (hx : x ∈ s.pair) (hx' : x ∈ s'.pair) : s = s' := by
  have hlt := index_lt hs
  have hlt' : s'.index < s.rule.steps.length := (List.getElem?_eq_some_iff.1 hs').1
  have hindex : s.index = s'.index := by
    rcases mem_pair.1 hx with rfl | rfl <;> rcases mem_pair.1 hx' with heq | heq <;>
      simp only [outer, inner, hr] at heq
    · have := finalName_injective _ heq
      omega
    · split at heq
      · have := finalName_injective _ heq
        omega
      · exact absurd heq (finalName_ne_intermediateName _ _ _)
    · split at heq
      · have := finalName_injective _ heq
        omega
      · exact absurd heq.symm (finalName_ne_intermediateName _ _ _)
    · split at heq <;> split at heq
      · omega
      · exact absurd heq (finalName_ne_intermediateName _ _ _)
      · exact absurd heq.symm (finalName_ne_intermediateName _ _ _)
      · have := intermediateName_injective _ heq
        omega
  obtain ⟨r, i, t⟩ := s
  obtain ⟨r', i', t'⟩ := s'
  dsimp only at hr hindex hs hs'
  subst hr hindex
  rw [hs] at hs'
  cases hs'
  rfl

end Split

namespace RuleSet

variable {p q : RuleSet} {r r' : Rule} {x : String}

/-- **No rank is produced by two rules.** -/
def Separate (p : RuleSet) : Prop := p.rules.Pairwise fun r r' => ∀ x, ¬ (r.produces x = true ∧ r'.produces x = true)

theorem separate_empty : empty.Separate := List.Pairwise.nil

theorem Separate.add (hp : p.Separate) (h : p.add r = .ok q) : q.Separate := by
  unfold RuleSet.add at h
  cases hprob : p.problem? r with
  | some e => rw [hprob] at h; cases h
  | none =>
    rw [hprob] at h
    cases h
    obtain ⟨-, -, -, hnew⟩ := of_problem?_eq_none hprob
    refine List.pairwise_append.2 ⟨hp, List.pairwise_singleton _ r, fun r' hr' r'' hr'' x hx => ?_⟩
    rw [List.mem_singleton.1 hr''] at hx
    have hold := (owns_eq_false_iff.1 (hnew x hx.2) r' hr').2
    exact Bool.false_ne_true (hold.symm.trans hx.1)

theorem Separate.addAll (rs : List Rule) (hp : p.Separate) (h : p.addAll rs = .ok q) : q.Separate :=
  addAll_induction Separate.add rs hp h

theorem Separate.rule_unique (hp : p.Separate) (hr : r ∈ p.rules) (hr' : r' ∈ p.rules) (h : r.produces x = true)
    (h' : r'.produces x = true) : r = r' := by
  by_contra hne
  have : Std.Symm fun r r' : Rule => ∀ x, ¬ (r.produces x = true ∧ r'.produces x = true) :=
    ⟨fun _ _ hab x hx => hab x hx.symm⟩
  exact List.Pairwise.forall hp hr hr' hne x ⟨h, h'⟩

theorem Coherent.produces_of_pair (hp : p.Coherent) {y : String} {s : Split} (hs : p.split? y = some s)
    (hx : x ∈ s.pair) : s.rule.produces x = true := by
  obtain ⟨-, hstep, -⟩ := hp.split?_eq_some_iff.1 hs
  exact Rule.mem_pairs_iff.1 (List.mem_flatMap.2 ⟨s, Rule.mem_splits.2 ⟨rfl, hstep⟩, hx⟩)

theorem Coherent.split?_of_mem (hp : p.Coherent) (hr : r ∈ p.rules) :
    ∃ s, p.split? r.rank = some s ∧ s.rule = r ∧ s.index = 0 := by
  obtain ⟨s, hs, rfl, hi⟩ := Rule.exists_split (List.length_pos_iff.2 (hp.steps_ne_nil r hr))
  refine ⟨s, hp.split?_eq_some_iff.2 ⟨hr, (Rule.mem_splits.1 hs).2, ?_⟩, rfl, hi⟩
  rw [Split.source, if_pos hi]

/-- The rule of a split begins with a split of its rank. -/
theorem Coherent.split?_rank (hp : p.Coherent) {y : String} {s : Split} (hs : p.split? y = some s) :
    ∃ s', p.split? s.rule.rank = some s' ∧ s'.rule = s.rule ∧ s'.index = 0 :=
  hp.split?_of_mem (hp.split?_eq_some_iff.1 hs).1

theorem Coherent.isDynamic_rank (hp : p.Coherent) {y : String} {s : Split} (hs : p.split? y = some s) :
    p.isDynamic s.rule.rank = s.step.isDynamic := by
  obtain ⟨s', hs', hr', -⟩ := hp.split?_rank hs
  rw [RuleSet.isDynamic, hs', Option.any_some]
  exact hp.isDynamic_eq hs hs' hr'

theorem isStatic_of_isDynamic (h : p.isDynamic x = true) : p.isStatic x = false := by
  cases hs : p.split? x with
  | none => rw [RuleSet.isStatic, hs]; rfl
  | some s =>
    rw [RuleSet.isDynamic, hs, Option.any_some] at h
    rw [RuleSet.isStatic, hs, Option.any_some, h]
    rfl

/-- **A rank is made by one split at most.** -/
theorem Coherent.maker_unique (hp : p.Coherent) (hsep : p.Separate) {y y' : String} {s s' : Split}
    (hs : p.split? y = some s) (hs' : p.split? y' = some s') (hx : x ∈ s.pair) (hx' : x ∈ s'.pair) : s = s' := by
  obtain ⟨hmem, hstep, -⟩ := hp.split?_eq_some_iff.1 hs
  obtain ⟨hmem', hstep', -⟩ := hp.split?_eq_some_iff.1 hs'
  have hr := hsep.rule_unique hmem' hmem (hp.produces_of_pair hs' hx') (hp.produces_of_pair hs hx)
  exact Split.eq_of_mem_pair hr hstep (hr ▸ hstep') hx hx'

/-- The split that makes a rank. -/
def maker? (p : RuleSet) (x : String) : Option Split :=
  (p.rules.flatMap Rule.splits).find? fun s => s.pair.contains x

theorem Coherent.maker?_eq_some_iff (hp : p.Coherent) (hsep : p.Separate) {s : Split} :
    p.maker? x = some s ↔ p.split? s.source = some s ∧ x ∈ s.pair := by
  have hsplit : ∀ {s : Split}, s ∈ p.rules.flatMap Rule.splits ↔ p.split? s.source = some s := by
    intro s
    rw [hp.split?_eq_some_iff, List.mem_flatMap]
    constructor
    · rintro ⟨r, hr, hs⟩
      obtain ⟨rfl, hstep⟩ := Rule.mem_splits.1 hs
      exact ⟨hr, hstep, rfl⟩
    · rintro ⟨hr, hstep, -⟩
      exact ⟨s.rule, hr, Rule.mem_splits.2 ⟨rfl, hstep⟩⟩
  have hfound : ∀ {s : Split}, p.maker? x = some s → p.split? s.source = some s ∧ x ∈ s.pair := by
    intro s h
    exact ⟨hsplit.1 (List.mem_of_find?_eq_some h), by simpa using List.find?_some h⟩
  refine ⟨hfound, fun ⟨hs, hx⟩ => ?_⟩
  cases h : p.maker? x with
  | none => exact absurd (List.contains_iff_mem.2 hx) (List.find?_eq_none.1 h s (hsplit.2 hs))
  | some s' => rw [hp.maker_unique hsep (hfound h).1 hs (hfound h).2 hx]

end RuleSet
end LoopNest
