import LoopNest.Rules
import LoopNest.Proofs.Text.Digits
import Mathlib.Data.List.Nodup
/-!
# Proofs.Rules.Coherence — the ranks of different rules do not meet

Every rule that is added names its intermediate and final ranks after its own rank.  The names of one rule differ from
each other because numerals do, and the checks on addition keep them apart from the names of all older rules.  So in a
rule set that was built by additions every source belongs to one split (`Coherent.split?_eq_some_iff`), every split
but the last of a rule is followed by that of its inner rank (`Coherent.split?_inner`), and no final rank is split.
-/
namespace LoopNest

/-- **A look-up finds the member with a key**, if no key is listed twice. -/
theorem find?_eq_some_of_nodup {α β : Type} [DecidableEq β] (f : α → β) :
    ∀ {l : List α} {a : α}, (l.map f).Nodup → a ∈ l → l.find? (fun b => f b == f a) = some a
  | b :: l, a, hnd, hmem => by
    rw [List.map_cons, List.nodup_cons] at hnd
    rw [List.find?_cons]
    rcases List.mem_cons.1 hmem with rfl | hmem
    · simp
    · have hne : f b ≠ f a := fun h => hnd.1 (h ▸ List.mem_map_of_mem hmem)
      rw [beq_false_of_ne hne]
      exact find?_eq_some_of_nodup f hnd.2 hmem

/-! ## Names -/

theorem toList_finalName (rank : String) (i : Nat) :
    (finalName rank i).toList = rank.toList ++ Text.decimalDigits i := by
  simp [finalName, Text.decimal]

theorem toList_intermediateName (rank : String) (i : Nat) :
    (intermediateName rank i).toList = rank.toList ++ Text.decimalDigits i ++ ['I'] := by
  simp [intermediateName, Text.decimal]

theorem intermediateName_injective (rank : String) : Function.Injective (intermediateName rank) := by
  intro i j h
  have hl := congrArg String.toList h
  rw [toList_intermediateName, toList_intermediateName] at hl
  exact Text.decimalDigits_injective (List.append_cancel_left (List.append_cancel_right hl))

theorem finalName_ne_rank (rank : String) (i : Nat) : finalName rank i ≠ rank := by
  intro h
  have hl := congrArg String.toList h
  rw [toList_finalName, List.append_right_eq_self] at hl
  exact Text.decimalDigits_ne_nil i hl

theorem intermediateName_ne_rank (rank : String) (i : Nat) : intermediateName rank i ≠ rank := by
  intro h
  have hl := congrArg String.toList h
  rw [toList_intermediateName, List.append_assoc, List.append_right_eq_self] at hl
  simp at hl

-- The last character tells the two kinds of names apart: a digit is no `I`.
theorem finalName_ne_intermediateName (rank : String) (i j : Nat) : finalName rank i ≠ intermediateName rank j := by
  intro h
  have hl := congrArg String.toList h
  rw [toList_finalName, toList_intermediateName, List.append_assoc, List.append_cancel_left_eq] at hl
  have hI : 'I' ∈ Text.decimalDigits i := by
    rw [hl]
    simp
  exact absurd (Text.isDecimalDigit_of_mem_decimalDigits i _ hI) (by decide)

/-! ## The splits of one rule -/

namespace Rule

variable {r : Rule} {x : String}

theorem mem_splits {s : Split} : s ∈ r.splits ↔ s.rule = r ∧ r.steps[s.index]? = some s.step := by
  obtain ⟨r', i, t⟩ := s
  simp only [splits, List.mem_map, Prod.exists, List.mem_zipIdx_iff_getElem?, Split.mk.injEq]
  constructor
  · rintro ⟨t', i', h, rfl, rfl, rfl⟩
    exact ⟨rfl, h⟩
  · rintro ⟨rfl, h⟩
    exact ⟨t, i, h, rfl, rfl, rfl⟩

theorem finalNames_eq (h : 0 < r.steps.length) :
    r.finalNames = (List.range (r.steps.length + 1)).reverse.map (finalName r.rank) := by
  rw [finalNames, List.isEmpty_eq_false_iff.2 (List.ne_nil_of_length_pos h)]
  rfl

theorem mem_finalNames : x ∈ r.finalNames ↔ r.steps ≠ [] ∧ ∃ i ≤ r.steps.length, finalName r.rank i = x := by
  by_cases h : r.steps = []
  · simp [finalNames, h]
  · rw [finalNames_eq (List.length_pos_iff.2 h), List.mem_map]
    simp only [List.mem_reverse, List.mem_range, Nat.lt_succ_iff, h, ne_eq, not_false_eq_true, true_and]

theorem mem_intermediates :
    x ∈ r.intermediates ↔ ∃ i, 1 ≤ i ∧ i < r.steps.length ∧ intermediateName r.rank i = x := by
  simp only [intermediates, List.mem_map, List.mem_reverse, List.mem_range'_1]
  constructor
  · rintro ⟨i, ⟨h1, h2⟩, h⟩
    exact ⟨i, h1, by omega, h⟩
  · rintro ⟨i, h1, h2, h⟩
    exact ⟨i, ⟨h1, by omega⟩, h⟩

/-- **The splits of a rule, in order, split its rank and then the ranks between the splits.** -/
theorem map_source_splits (h : r.steps ≠ []) : r.splits.map Split.source = r.rank :: r.intermediates := by
  have hpos := List.length_pos_iff.2 h
  apply List.ext_getElem
  · simp only [splits, intermediates, List.length_map, List.length_zipIdx, List.length_cons, List.length_reverse,
      List.length_range']
    omega
  · intro i h1 h2
    simp only [splits, List.length_map, List.length_zipIdx] at h1
    cases i with
    | zero => simp [splits, Split.source]
    | succ i =>
      simp only [splits, intermediates, Split.source, List.getElem_map, List.getElem_zipIdx, List.getElem_cons_succ,
        List.getElem_reverse, List.getElem_range', List.length_range']
      rw [if_neg (by omega)]
      congr 1
      omega

theorem nodup_sources : (r.rank :: r.intermediates).Nodup := by
  rw [List.nodup_cons]
  refine ⟨fun h => ?_, ?_⟩
  · obtain ⟨i, -, -, h⟩ := mem_intermediates.1 h
    exact intermediateName_ne_rank _ _ h
  · exact (List.nodup_reverse.2 List.nodup_range').map (intermediateName_injective _)

theorem finalName_not_source {f : String} (hf : f ∈ r.finalNames) : f ∉ r.rank :: r.intermediates := by
  obtain ⟨-, i, -, rfl⟩ := mem_finalNames.1 hf
  rw [List.mem_cons]
  rintro (h | h)
  · exact finalName_ne_rank _ _ h
  · obtain ⟨j, -, -, h⟩ := mem_intermediates.1 h
    exact finalName_ne_intermediateName _ _ _ h.symm

end Rule

namespace Split

variable {s s' : Split}

theorem inner_eq_source (hr : s'.rule = s.rule) (hi : s'.index = s.index + 1) (hl : s'.index < s.rule.steps.length) :
    s.inner = s'.source := by
  unfold inner source
  rw [if_neg (by omega), if_neg (by omega), hr, hi, Nat.sub_sub]

theorem finals_eq (h : s.index < s.rule.steps.length) :
    s.finals = s.outer :: s.rule.finalNames.drop (s.index + 1) := by
  have hf := Rule.finalNames_eq (r := s.rule) (by omega)
  have hl : s.index < s.rule.finalNames.length := by
    rw [hf, List.length_map, List.length_reverse, List.length_range]
    omega
  rw [finals, List.drop_eq_getElem_cons hl]
  simp only [hf, List.getElem_map, List.getElem_reverse, List.getElem_range, List.length_range, outer]
  rfl

theorem finals_of_last (h : s.index + 1 = s.rule.steps.length) : s.finals = [s.outer, s.inner] := by
  rw [finals_eq (by omega), h, inner, if_pos h, Rule.finalNames_eq (by omega)]
  simp [List.range_succ_eq_map, ← List.map_reverse]

theorem finals_of_next (hr : s'.rule = s.rule) (hi : s'.index = s.index + 1) (hl : s'.index < s.rule.steps.length) :
    s.finals = s.outer :: s'.finals := by
  rw [finals_eq (by omega), finals, hr, hi]

theorem index_lt (h : s.rule.steps[s.index]? = some s.step) : s.index < s.rule.steps.length :=
  (List.getElem?_eq_some_iff.1 h).1

theorem source_mem_intermediates (h : s.rule.steps[s.index]? = some s.step) (hne : s.index ≠ 0) :
    s.source ∈ s.rule.intermediates := by
  have hlt := index_lt h
  rw [Rule.mem_intermediates, source, if_neg hne]
  exact ⟨s.rule.steps.length - s.index, by omega, by omega, rfl⟩

theorem drop_splits (h : s.rule.steps[s.index]? = some s.step) :
    s.rule.splits.drop s.index = s :: s.rule.splits.drop (s.index + 1) := by
  obtain ⟨hlt, hstep⟩ := List.getElem?_eq_some_iff.1 h
  rw [List.drop_eq_getElem_cons (by simpa [Rule.splits] using hlt)]
  simp [Rule.splits, hstep]

end Split

theorem Step.problem?_eq_none_iff {s : Step} {rank : String} {dynamic : Bool} {i : Nat} :
    s.problem? rank dynamic i = none ↔
      s.kind.isKnown = true ∧ 0 < s.size ∧ s.isDynamic = dynamic ∧ (s.isDynamic = true ↔ s.leader ≠ "") := by
  unfold problem?
  by_cases hkind : s.kind.isKnown = true
  · by_cases hsize : s.size ≤ 0
    · simp [hkind, hsize, Int.not_lt.2 hsize]
    · by_cases hd : s.isDynamic = dynamic
      · cases hdyn : s.isDynamic <;> simp [hkind, hsize, ← hd, hdyn, Int.not_le.1 hsize]
      · simp [hkind, hsize, hd]
  · simp [hkind]

namespace Rule

variable {r : Rule} {x : String}

theorem exists_split {i : Nat} (h : i < r.steps.length) : ∃ s ∈ r.splits, s.rule = r ∧ s.index = i :=
  ⟨⟨r, i, r.steps[i]⟩, mem_splits.2 ⟨rfl, List.getElem?_eq_getElem h⟩, rfl, rfl⟩

theorem produces_iff : r.produces x = true ↔ x ∈ r.finalNames ∨ x ∈ r.intermediates := by
  simp [produces]

/-- **The splits of a rule make exactly the ranks that it produces.** -/
theorem mem_pairs_iff : x ∈ r.splits.flatMap Split.pair ↔ r.produces x = true := by
  rw [produces_iff, mem_finalNames, mem_intermediates, List.mem_flatMap]
  constructor
  · rintro ⟨s, hs, hx⟩
    obtain ⟨rfl, hi⟩ := mem_splits.1 hs
    have hlt := Split.index_lt hi
    have hne : s.rule.steps ≠ [] := List.ne_nil_of_length_pos (by omega)
    simp only [Split.pair, List.mem_cons, List.not_mem_nil, or_false] at hx
    rcases hx with rfl | rfl
    · exact .inl ⟨hne, s.rule.steps.length - s.index, by omega, rfl⟩
    · unfold Split.inner
      split
      · exact .inl ⟨hne, 0, by omega, rfl⟩
      · exact .inr ⟨s.rule.steps.length - s.index - 1, by omega, by omega, rfl⟩
  · rintro (⟨hne, i, hi, rfl⟩ | ⟨i, h1, hi, rfl⟩)
    · have hpos := List.length_pos_iff.2 hne
      by_cases h0 : i = 0
      · obtain ⟨s, hs, hr, hidx⟩ := exists_split (r := r) (i := r.steps.length - 1) (by omega)
        refine ⟨s, hs, List.mem_cons_of_mem _ (List.mem_singleton.2 ?_)⟩
        rw [Split.inner, hr, hidx, if_pos (by omega), h0]
      · obtain ⟨s, hs, hr, hidx⟩ := exists_split (r := r) (i := r.steps.length - i) (by omega)
        refine ⟨s, hs, List.mem_cons.2 (.inl ?_)⟩
        rw [Split.outer, hr, hidx, Nat.sub_sub_self hi]
    · obtain ⟨s, hs, hr, hidx⟩ := exists_split (r := r) (i := r.steps.length - i - 1) (by omega)
      refine ⟨s, hs, List.mem_cons_of_mem _ (List.mem_singleton.2 ?_)⟩
      rw [Split.inner, hr, hidx, if_neg (by omega)]
      congr 1
      omega

/-- **What is asked of the steps of a rule**: known kinds, positive sizes, a leader exactly where a step is dynamic, and
all steps dynamic or none. -/
theorem stepsProblem?_eq_none_iff : r.stepsProblem? = none ↔ r.steps ≠ [] ∧
    (∀ s ∈ r.steps, s.kind.isKnown = true ∧ 0 < s.size ∧ (s.isDynamic = true ↔ s.leader ≠ "")) ∧
    ∀ s ∈ r.steps, ∀ t ∈ r.steps, s.isDynamic = t.isDynamic := by
  unfold stepsProblem?
  cases r.steps with
  | nil => simp
  | cons u us =>
    simp only [List.findSome?_eq_none_iff, Step.problem?_eq_none_iff]
    constructor
    · intro h
      have hall : ∀ s ∈ u :: us, s.kind.isKnown = true ∧ 0 < s.size ∧ s.isDynamic = u.isDynamic ∧
          (s.isDynamic = true ↔ s.leader ≠ "") := by
        intro s hs
        obtain ⟨i, hi⟩ := List.mem_iff_getElem?.1 hs
        exact h (s, i) (List.mem_zipIdx_iff_getElem?.2 hi)
      refine ⟨List.cons_ne_nil _ _, fun s hs => ?_, fun s hs t ht => ?_⟩
      · obtain ⟨hkind, hsize, -, hleader⟩ := hall s hs
        exact ⟨hkind, hsize, hleader⟩
      · rw [(hall s hs).2.2.1, (hall t ht).2.2.1]
    · rintro ⟨-, h, huni⟩ e he
      have hs : e.1 ∈ u :: us := List.fst_mem_of_mem_zipIdx he
      obtain ⟨hkind, hsize, hleader⟩ := h e.1 hs
      exact ⟨hkind, hsize, huni e.1 hs u List.mem_cons_self, hleader⟩

end Rule

/-! ## Rules that were added one after the other -/

namespace RuleSet

variable {p q : RuleSet} {r : Rule} {x : String}

theorem owns_eq_false_iff : p.owns x = false ↔ ∀ r ∈ p.rules, r.rank ≠ x ∧ r.produces x = false := by
  simp only [owns, origin?, rule?, Bool.or_eq_false_iff, Option.isSome_map, Option.isSome_eq_false_iff,
    Option.isNone_iff_eq_none, List.find?_eq_none, beq_iff_eq, Bool.not_eq_true]
  exact ⟨fun h r hr => ⟨h.2 r hr, h.1 r hr⟩, fun h => ⟨fun r hr => (h r hr).2, fun r hr => (h r hr).1⟩⟩

/-- **What the checks on a new rule say**: it has steps, all of one kind, and neither its rank nor a rank that it
produces is known to the older rules. -/
theorem of_problem?_eq_none (h : p.problem? r = none) : r.steps ≠ [] ∧
    (∀ s ∈ r.steps, ∀ t ∈ r.steps, s.isDynamic = t.isDynamic) ∧ p.owns r.rank = false ∧
    ∀ x, r.produces x = true → p.owns x = false := by
  simp only [problem?, Option.or_eq_none_iff, Option.map_eq_none_iff, List.find?_eq_none, Bool.not_eq_true] at h
  obtain ⟨-, hne, hrule, horigin, hsteps, hpairs⟩ := h
  refine ⟨fun hnil => ?_, (Rule.stepsProblem?_eq_none_iff.1 hsteps).2.2, ?_,
    fun x hx => hpairs x (Rule.mem_pairs_iff.2 hx)⟩
  · simp [hnil] at hne
  · rw [owns, horigin]
    simpa using hrule

/-- **Coherence**: no two splits have the same source, final ranks are not split, and every rule has steps, all of
them dynamic or none. -/
structure Coherent (p : RuleSet) : Prop where
  nodup_sources : ((p.rules.flatMap Rule.splits).map Split.source).Nodup
  finals_unsplit : ∀ r ∈ p.rules, ∀ f ∈ r.finalNames, f ∉ (p.rules.flatMap Rule.splits).map Split.source
  steps_ne_nil : ∀ r ∈ p.rules, r.steps ≠ []
  uniform : ∀ r ∈ p.rules, ∀ s ∈ r.steps, ∀ t ∈ r.steps, s.isDynamic = t.isDynamic

theorem coherent_empty : empty.Coherent :=
  ⟨List.nodup_nil, by simp [empty], by simp [empty], by simp [empty]⟩

theorem mem_sources {p : RuleSet} (hs : ∀ r ∈ p.rules, r.steps ≠ []) :
    x ∈ (p.rules.flatMap Rule.splits).map Split.source ↔ ∃ r ∈ p.rules, x ∈ r.rank :: r.intermediates := by
  rw [List.map_flatMap, List.mem_flatMap]
  exact exists_congr fun r => and_congr_right fun hr => by rw [Rule.map_source_splits (hs r hr)]

theorem Coherent.owns_of_source (hp : p.Coherent) (hx : x ∈ (p.rules.flatMap Rule.splits).map Split.source) :
    p.owns x = true := by
  obtain ⟨r, hr, hx⟩ := (mem_sources hp.steps_ne_nil).1 hx
  rw [← Bool.not_eq_false, owns_eq_false_iff]
  intro h
  rcases List.mem_cons.1 hx with rfl | hx
  · exact (h r hr).1 rfl
  · exact Bool.false_ne_true ((h r hr).2.symm.trans (Rule.produces_iff.2 (.inr hx)))

/-- **An addition keeps a rule set coherent.** -/
theorem Coherent.add (hp : p.Coherent) (h : p.add r = .ok q) : q.Coherent := by
  unfold RuleSet.add at h
  cases hprob : p.problem? r with
  | some e => rw [hprob] at h; cases h
  | none =>
    rw [hprob] at h
    cases h
    obtain ⟨hne, huni, hrank, hprod⟩ := of_problem?_eq_none hprob
    have hall : ∀ r' ∈ p.rules ++ [r], r'.steps ≠ [] :=
      List.forall_mem_append.2 ⟨hp.steps_ne_nil, List.forall_mem_singleton.2 hne⟩
    have hsrc : ∀ x ∈ r.rank :: r.intermediates, p.owns x = false := by
      intro x hx
      rcases List.mem_cons.1 hx with rfl | hx
      · exact hrank
      · exact hprod x (Rule.produces_iff.2 (.inr hx))
    refine ⟨?_, fun r' hr' f hf => ?_, hall, List.forall_mem_append.2 ⟨hp.uniform, List.forall_mem_singleton.2 huni⟩⟩
    · rw [List.flatMap_append, List.map_append, List.nodup_append]
      refine ⟨hp.nodup_sources, ?_, fun a ha b hb hab => ?_⟩
      · simpa [Rule.map_source_splits hne] using Rule.nodup_sources (r := r)
      · have hb : b ∈ r.rank :: r.intermediates := by simpa [Rule.map_source_splits hne] using hb
        exact Bool.false_ne_true ((hsrc b hb).symm.trans (hab ▸ hp.owns_of_source ha))
    · rw [mem_sources hall]
      rintro ⟨r'', hr'', hx⟩
      -- A final rank and a source of the new rule differ by name, and where one of them is old the other is not owned.
      rcases List.mem_append.1 hr' with hr' | hr' <;> rcases List.mem_append.1 hr'' with hr'' | hr''
      · exact hp.finals_unsplit r' hr' f hf ((mem_sources hp.steps_ne_nil).2 ⟨r'', hr'', hx⟩)
      · rw [List.mem_singleton.1 hr''] at hx
        have hnot := (owns_eq_false_iff.1 (hsrc f hx) r' hr').2
        exact Bool.false_ne_true (hnot.symm.trans (Rule.produces_iff.2 (.inl hf)))
      · rw [List.mem_singleton.1 hr'] at hf
        have hown := hp.owns_of_source ((mem_sources hp.steps_ne_nil).2 ⟨r'', hr'', hx⟩)
        exact Bool.false_ne_true ((hprod f (Rule.produces_iff.2 (.inl hf))).symm.trans hown)
      · rw [List.mem_singleton.1 hr'] at hf
        rw [List.mem_singleton.1 hr''] at hx
        exact Rule.finalName_not_source hf hx

/-- **What every addition keeps, adding a list of rules keeps.** -/
theorem addAll_induction {P : RuleSet → Prop} (hadd : ∀ {p r q}, P p → p.add r = .ok q → P q) :
    ∀ (rs : List Rule) {p q : RuleSet}, P p → p.addAll rs = .ok q → P q
  | [], p, q, hp, h => by cases h; exact hp
  | r :: rs, p, q, hp, h => by
    unfold RuleSet.addAll at h
    cases hr : p.add r with
    | error e => rw [hr] at h; cases h
    | ok p' =>
      rw [hr] at h
      exact addAll_induction hadd rs (hadd hp hr) h

theorem Coherent.addAll (rs : List Rule) (hp : p.Coherent) (h : p.addAll rs = .ok q) : q.Coherent :=
  addAll_induction Coherent.add rs hp h

/-! ## What coherence says about splits -/

theorem Coherent.split?_eq_some_iff (hp : p.Coherent) {s : Split} : p.split? x = some s ↔
    s.rule ∈ p.rules ∧ s.rule.steps[s.index]? = some s.step ∧ s.source = x := by
  have hmem : s ∈ p.rules.flatMap Rule.splits ↔ s.rule ∈ p.rules ∧ s.rule.steps[s.index]? = some s.step := by
    simp only [List.mem_flatMap, Rule.mem_splits]
    exact ⟨fun ⟨r, hr, h, hs⟩ => h ▸ ⟨hr, hs⟩, fun ⟨hr, hs⟩ => ⟨s.rule, hr, rfl, hs⟩⟩
  rw [← and_assoc, ← hmem]
  constructor
  · intro h
    exact ⟨List.mem_of_find?_eq_some h, by simpa using List.find?_some h⟩
  · rintro ⟨hs, rfl⟩
    exact find?_eq_some_of_nodup Split.source hp.nodup_sources hs

theorem split?_eq_none_iff : p.split? x = none ↔ x ∉ (p.rules.flatMap Rule.splits).map Split.source := by
  simp only [split?, List.find?_eq_none, beq_iff_eq, List.mem_map, not_exists, not_and]

theorem Coherent.split?_final (hp : p.Coherent) (hr : r ∈ p.rules) (hx : x ∈ r.finalNames) : p.split? x = none :=
  split?_eq_none_iff.2 (hp.finals_unsplit r hr x hx)

/-- Every split but the last of its rule is followed by the split of the inner rank that it makes. -/
theorem Coherent.split?_inner (hp : p.Coherent) {s : Split} (h : p.split? x = some s)
    (hlast : s.index + 1 ≠ s.rule.steps.length) :
    ∃ s', p.split? s.inner = some s' ∧ s'.rule = s.rule ∧ s'.index = s.index + 1 := by
  obtain ⟨hr, hs, -⟩ := hp.split?_eq_some_iff.1 h
  have hlt := Split.index_lt hs
  obtain ⟨s', hs', hr', hi'⟩ := Rule.exists_split (r := s.rule) (i := s.index + 1) (by omega)
  obtain ⟨-, hs'⟩ := Rule.mem_splits.1 hs'
  refine ⟨s', hp.split?_eq_some_iff.2 ⟨hr' ▸ hr, hr' ▸ hs', ?_⟩, hr', hi'⟩
  exact (Split.inner_eq_source hr' hi' (by omega)).symm

theorem Coherent.outer_mem_finals (hp : p.Coherent) {s : Split} (h : p.split? x = some s) : s.outer ∈ s.finals := by
  obtain ⟨-, hs, -⟩ := hp.split?_eq_some_iff.1 h
  rw [Split.finals_eq (Split.index_lt hs)]
  exact List.mem_cons_self

theorem Coherent.split?_of_mem_finals (hp : p.Coherent) {s : Split} (h : p.split? x = some s) {f : String}
    (hf : f ∈ s.finals) : p.split? f = none :=
  hp.split?_final (hp.split?_eq_some_iff.1 h).1 (List.mem_of_mem_drop hf)

/-- What a split makes is split by the same rule, if at all. -/
theorem Coherent.rule_of_pair (hp : p.Coherent) {s s' : Split} (h : p.split? x = some s) {y : String}
    (hy : y ∈ s.pair) (h' : p.split? y = some s') : s'.rule = s.rule := by
  simp only [Split.pair, List.mem_cons, List.not_mem_nil, or_false] at hy
  rcases hy with rfl | rfl
  · rw [hp.split?_of_mem_finals h (hp.outer_mem_finals h)] at h'
    cases h'
  · by_cases hlast : s.index + 1 = s.rule.steps.length
    · rw [hp.split?_of_mem_finals h (by simp [Split.finals_of_last hlast])] at h'
      cases h'
    · obtain ⟨s'', hs'', hr, -⟩ := hp.split?_inner h hlast
      rw [hs''] at h'
      cases h'
      exact hr

theorem Coherent.isDynamic_eq (hp : p.Coherent) {s s' : Split} {y : String} (h : p.split? x = some s)
    (h' : p.split? y = some s') (hr : s'.rule = s.rule) : s'.step.isDynamic = s.step.isDynamic := by
  obtain ⟨hmem, hs, -⟩ := hp.split?_eq_some_iff.1 h
  obtain ⟨-, hs', -⟩ := hp.split?_eq_some_iff.1 h'
  rw [hr] at hs'
  exact hp.uniform s.rule hmem _ (List.mem_of_getElem? hs') _ (List.mem_of_getElem? hs)

/-- The first split of a rule is that of its rank. -/
theorem Coherent.rule?_eq (hp : p.Coherent) {s : Split} (h : p.split? x = some s) (h0 : s.index = 0) :
    p.rule? x = some s.rule := by
  obtain ⟨hmem, -, hsrc⟩ := hp.split?_eq_some_iff.1 h
  have hrank : s.rule.rank = x := by rw [← hsrc, Split.source, if_pos h0]
  cases hr : p.rule? x with
  | none => exact absurd hrank (by simpa using List.find?_eq_none.1 hr s.rule hmem)
  | some r =>
    have hrm : r ∈ p.rules := List.mem_of_find?_eq_some hr
    have hrx : r.rank = x := by simpa using List.find?_some hr
    obtain ⟨s', hs', rfl, hi'⟩ := Rule.exists_split (List.length_pos_iff.2 (hp.steps_ne_nil r hrm))
    have hsplit : p.split? x = some s' :=
      hp.split?_eq_some_iff.2 ⟨hrm, (Rule.mem_splits.1 hs').2, by rw [Split.source, if_pos hi', hrx]⟩
    rw [h] at hsplit
    cases hsplit
    rfl

end RuleSet

end LoopNest
