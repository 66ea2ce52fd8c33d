import LoopNest.Program
import LoopNest.Proofs.Rules.Coherence
/-!
# Proofs.Program.Validation — what the checks on a program guarantee

A program is `Validated` when its rules were added one by one and `Program.make` accepted it.  `Consistent` collects
what that gives: the rules are coherent, loops are distinct and not split, a declared rank is split by the first step
of its own rule if at all, and every declared rank is `Covered`, that is, there is a loop for each rank that it becomes
in the end.  A split keeps the ranks that a rank becomes in the end (`loopsFor_split`), so it keeps coverage, and a
covered rank has a place in the loop order (`Covered.key?_isSome`).
-/
namespace LoopNest

theorem Identifier.repeated?_eq_none_iff : ∀ {l seen : List String}, Identifier.repeated? seen l = none ↔
    l.Nodup ∧ ∀ x ∈ l, x ∉ seen
  | [], seen => by simp [Identifier.repeated?]
  | x :: l, seen => by
    rw [Identifier.repeated?, List.nodup_cons, List.forall_mem_cons]
    by_cases hx : x ∈ seen
    · simp [hx]
    · rw [if_neg hx, Identifier.repeated?_eq_none_iff]
      simp only [List.mem_cons, not_or]
      constructor
      · rintro ⟨hnd, hnot⟩
        exact ⟨⟨fun hmem => (hnot x hmem).1 rfl, hnd⟩, hx, fun y hy => (hnot y hy).2⟩
      · rintro ⟨⟨hnew, hnd⟩, -, hold⟩
        exact ⟨hnd, fun y hy => ⟨fun heq => hnew (heq ▸ hy), hold y hy⟩⟩

theorem Identifier.uniqueProblem?_eq_none_iff {code : Code} {what : String} {l : List String} :
    Identifier.uniqueProblem? code what l = none ↔ l.Nodup := by
  rw [uniqueProblem?, Option.map_eq_none_iff, repeated?_eq_none_iff]
  simp

theorem lastIndex?_eq_none_iff {α : Type} [DecidableEq α] {a : α} : ∀ {l : List α}, lastIndex? l a = none ↔ a ∉ l
  | [] => by simp [lastIndex?]
  | b :: l => by
    rw [List.mem_cons, not_or, ← lastIndex?_eq_none_iff, lastIndex?]
    cases lastIndex? l a with
    | some i => simp
    | none => simp [eq_comm]

namespace LoopOrder

variable {l : LoopOrder} {x : String}

theorem position?_eq_none_iff : l.position? x = none ↔ x ∉ l.ranks := lastIndex?_eq_none_iff

/-- **A rank has no place in the loop order** if there is a loop neither over it nor over one of its final ranks. -/
theorem key?_eq_none_iff : l.key? x = none ↔ x ∉ l.ranks ∧ ∀ f ∈ l.rules.finals x, f ∉ l.ranks := by
  rw [← position?_eq_none_iff]
  unfold key?
  cases l.position? x with
  | some i => simp
  | none => simp only [List.min?_eq_none_iff, List.filterMap_eq_nil_iff, position?_eq_none_iff, true_and]

end LoopOrder

/-- What is asked of a tensor alone: names, and no rank twice. -/
def Tensor.Fit (t : Tensor) : Prop :=
  Identifier.problem? .tensor t.root = none ∧ (∀ x ∈ t.ranks, Identifier.problem? .rank x = none) ∧ t.ranks.Nodup

namespace Program

/-- **A program that passed all checks**: its rules were added to none, and it was made from its parts. -/
def Validated (p : Program) : Prop :=
  (∃ rs, RuleSet.empty.addAll rs = .ok p.rules) ∧ Program.make p.tensors p.output p.loops p.rules = .ok p

/-- There is a loop for every rank that a rank becomes in the end. -/
def Covered (p : Program) (rank : String) : Prop := ∀ f ∈ p.loopsFor rank, f ∈ p.loops

/-- **What a validated program satisfies.** -/
structure Consistent (p : Program) : Prop where
  coherent : p.rules.Coherent
  nodup_loops : p.loops.Nodup
  loops_unsplit : ∀ x ∈ p.loops, p.rules.split? x = none
  index_declared : ∀ t ∈ p.tensors, ∀ x ∈ t.ranks, ∀ s, p.rules.split? x = some s → s.index = 0
  covered : ∀ t ∈ p.tensors, ∀ x ∈ t.ranks, p.Covered x
  leader : ∀ r ∈ p.rules.rules, ∀ s ∈ r.steps, s.isDynamic = true → (p.tensor? s.leader).isSome = true
  output_mem : p.outputTensor ∈ p.tensors

variable {p : Program} {x : String} {s : Split}

theorem make_eq_ok_iff {tensors : List Tensor} {output : String} {loops : List String} {rules : RuleSet} :
    make tensors output loops rules = .ok p ↔ p = ⟨tensors, output, loops, rules⟩ ∧ p.problem? = none := by
  cases hprob : problem? ⟨tensors, output, loops, rules⟩ with
  | none =>
    simp only [make, hprob, Except.ok.injEq]
    exact ⟨fun h => h ▸ ⟨rfl, hprob⟩, fun h => h.1.symm⟩
  | some e =>
    simp only [make, hprob, reduceCtorEq, false_iff, not_and]
    rintro rfl hnone
    rw [hprob] at hnone
    cases hnone

theorem Validated.of_problem? (hprob : p.problem? = none)
    (hrules : RuleSet.empty.addAll p.rules.rules = .ok p.rules) : p.Validated :=
  ⟨⟨p.rules.rules, hrules⟩, make_eq_ok_iff.2 ⟨rfl, hprob⟩⟩

theorem problem?_of_make (h : Program.make p.tensors p.output p.loops p.rules = .ok p) : p.problem? = none :=
  (make_eq_ok_iff.1 h).2

/-! ## What each check asks -/

theorem declares_iff : p.declares x = true ↔ ∃ t ∈ p.tensors, x ∈ t.ranks := by
  simp [declares, Tensor.hasRank]

theorem tensorProblem?_eq_none_iff {seen : List String} {t : Tensor} :
    tensorProblem? seen t = none ↔ t.Fit ∧ t.root ∉ seen := by
  simp only [tensorProblem?, Option.or_eq_none_iff, ite_eq_right_iff, reduceCtorEq, imp_false, tensorRankProblem?,
    List.findSome?_eq_none_iff, Option.map_eq_none_iff, Identifier.uniqueProblem?_eq_none_iff, Tensor.Fit]
  tauto

/-- **A list of tensors passes when each does alone and no two have the same name.** -/
theorem tensorsProblem?_eq_none_iff : ∀ {ts : List Tensor} {seen : List String}, tensorsProblem? seen ts = none ↔
    (∀ t ∈ ts, t.Fit) ∧ (ts.map Tensor.root).Nodup ∧ ∀ t ∈ ts, t.root ∉ seen
  | [], seen => by simp [tensorsProblem?]
  | t :: ts, seen => by
    rw [tensorsProblem?, Option.or_eq_none_iff, tensorProblem?_eq_none_iff, tensorsProblem?_eq_none_iff,
      List.map_cons, List.nodup_cons, List.mem_map, List.forall_mem_cons, List.forall_mem_cons]
    simp only [List.mem_cons, not_or]
    constructor
    · rintro ⟨⟨ht, hseen⟩, hts, hnd, hnew⟩
      refine ⟨⟨ht, hts⟩, ⟨?_, hnd⟩, hseen, fun u hu => (hnew u hu).2⟩
      rintro ⟨u, hu, hroot⟩
      exact (hnew u hu).1 hroot
    · rintro ⟨⟨ht, hts⟩, ⟨hnot, hnd⟩, hseen, hold⟩
      exact ⟨⟨ht, hseen⟩, hts, hnd, fun u hu => ⟨fun hroot => hnot ⟨u, hu, hroot⟩, hold u hu⟩⟩

theorem loopProblem?_eq_none_iff :
    p.loopProblem? x = none ↔ Identifier.problem? .rank x = none ∧ p.rules.split? x = none := by
  simp only [loopProblem?, Option.or_eq_none_iff, ite_eq_right_iff, reduceCtorEq, imp_false]
  simp only [RuleSet.isPartitioned, Bool.not_eq_true, Option.isSome_eq_false_iff, Option.isNone_iff_eq_none]

theorem leaderProblem?_eq_none_iff {u : Step} : p.leaderProblem? x u = none ↔
    (u.isDynamic = true → ∃ t, p.tensor? u.leader = some t ∧ x ∈ t.ranks) := by
  unfold leaderProblem?
  cases u.isDynamic with
  | false => simp
  | true => cases p.tensor? u.leader <;> simp [Tensor.hasRank]

/-- The rank of a rule is declared, what the rule makes is not, and its dynamic steps have leaders with that rank. -/
theorem ruleProblem?_eq_none_iff {r : Rule} : p.ruleProblem? r = none ↔
    (∃ t ∈ p.tensors, r.rank ∈ t.ranks) ∧ (∀ y ∈ r.finalNames ++ r.intermediates, ∀ t ∈ p.tensors, y ∉ t.ranks) ∧
    ∀ u ∈ r.steps, u.isDynamic = true → ∃ t, p.tensor? u.leader = some t ∧ r.rank ∈ t.ranks := by
  simp only [ruleProblem?, Option.or_eq_none_iff, Option.map_eq_none_iff, List.find?_eq_none, ite_eq_left_iff,
    reduceCtorEq, imp_false, not_not, List.findSome?_eq_none_iff, declares_iff, leaderProblem?_eq_none_iff]
  simp only [not_exists, not_and]

theorem coverageProblem?_eq_none_iff {t : Tensor} : p.coverageProblem? t = none ↔ ∀ y ∈ t.ranks, p.Covered y := by
  simp only [coverageProblem?, Option.map_eq_none_iff, List.find?_eq_none, decide_eq_true_eq, not_not, List.mem_flatMap,
    Covered]
  exact ⟨fun h y hy f hf => h f ⟨y, hy, hf⟩, fun h f ⟨y, hy, hf⟩ => h y hy f hf⟩

/-- **What all checks together ask of a program.** -/
theorem problem?_eq_none_iff : p.problem? = none ↔
    p.tensors ≠ [] ∧ ((∀ t ∈ p.tensors, t.Fit) ∧ (p.tensors.map Tensor.root).Nodup) ∧
    (p.tensor? p.output).isSome = true ∧ p.loops ≠ [] ∧
    (∀ y ∈ p.loops, Identifier.problem? .rank y = none ∧ p.rules.split? y = none) ∧ p.loops.Nodup ∧
    (∀ r ∈ p.rules.rules, (∃ t ∈ p.tensors, r.rank ∈ t.ranks) ∧
      (∀ y ∈ r.finalNames ++ r.intermediates, ∀ t ∈ p.tensors, y ∉ t.ranks) ∧
      ∀ u ∈ r.steps, u.isDynamic = true → ∃ t, p.tensor? u.leader = some t ∧ r.rank ∈ t.ranks) ∧
    ∀ t ∈ p.tensors, ∀ y ∈ t.ranks, p.Covered y := by
  simp only [problem?, Option.or_eq_none_iff, List.findSome?_eq_none_iff, ite_eq_left_iff, ite_eq_right_iff,
    reduceCtorEq, imp_false, not_not, List.isEmpty_iff, tensorsProblem?_eq_none_iff, loopProblem?_eq_none_iff,
    Identifier.uniqueProblem?_eq_none_iff, ruleProblem?_eq_none_iff, coverageProblem?_eq_none_iff, ne_eq,
    List.not_mem_nil, not_false_eq_true, implies_true, and_true]

/-- The tensor with a name is the only one that has it. -/
theorem tensor?_eq_some_iff (hp : (p.tensors.map Tensor.root).Nodup) {name : String} {t : Tensor} :
    p.tensor? name = some t ↔ t ∈ p.tensors ∧ t.root = name := by
  constructor
  · intro h
    exact ⟨List.mem_of_find?_eq_some h, by simpa using List.find?_some h⟩
  · rintro ⟨ht, rfl⟩
    exact find?_eq_some_of_nodup Tensor.root hp ht

theorem outputTensor_mem (h : (p.tensor? p.output).isSome = true) : p.outputTensor ∈ p.tensors := by
  obtain ⟨t, ht⟩ := Option.isSome_iff_exists.1 h
  rw [outputTensor, ht]
  exact List.mem_of_find?_eq_some ht

theorem Validated.consistent (hp : p.Validated) : p.Consistent := by
  obtain ⟨⟨rs, hrs⟩, hmake⟩ := hp
  have hcoh := RuleSet.Coherent.addAll rs RuleSet.coherent_empty hrs
  obtain ⟨-, -, hout, -, hloops, hnd, hrules, hcov⟩ := problem?_eq_none_iff.1 (problem?_of_make hmake)
  refine ⟨hcoh, hnd, fun x hx => (hloops x hx).2, fun t ht x hx s hs => ?_, hcov, fun r hr u hu hdyn => ?_,
    outputTensor_mem hout⟩
  · -- A rank that a later step splits comes from a rule, and then no tensor declares it.
    by_contra hne
    obtain ⟨hr, hstep, hsrc⟩ := hcoh.split?_eq_some_iff.1 hs
    have hmem := hsrc ▸ Split.source_mem_intermediates hstep hne
    exact (hrules s.rule hr).2.1 x (List.mem_append_right _ hmem) t ht hx
  · obtain ⟨t, ht, -⟩ := (hrules r hr).2.2 u hu hdyn
    exact Option.isSome_of_eq_some ht

/-! ## Coverage -/

theorem loopsFor_of_unsplit (h : p.rules.split? x = none) : p.loopsFor x = [x] := by
  simp [loopsFor, RuleSet.isPartitioned, h]

theorem loopsFor_of_split (h : p.rules.split? x = some s) : p.loopsFor x = s.finals := by
  simp [loopsFor, RuleSet.isPartitioned, RuleSet.finals, h]

/-- **A split keeps the ranks that a rank becomes in the end.** -/
theorem loopsFor_split (hp : p.rules.Coherent) (h : p.rules.split? x = some s) :
    p.loopsFor x = s.pair.flatMap p.loopsFor := by
  obtain ⟨-, hstep, -⟩ := hp.split?_eq_some_iff.1 h
  have hlt := Split.index_lt hstep
  have hunsplit : ∀ f ∈ s.finals, p.loopsFor f = [f] := fun f hf => loopsFor_of_unsplit (hp.split?_of_mem_finals h hf)
  have houter := hunsplit s.outer (hp.outer_mem_finals h)
  rw [loopsFor_of_split h, Split.pair, List.flatMap_cons, List.flatMap_cons, List.flatMap_nil, houter, List.append_nil]
  by_cases hlast : s.index + 1 = s.rule.steps.length
  · have hinner : p.loopsFor s.inner = [s.inner] := hunsplit s.inner (by simp [Split.finals_of_last hlast])
    rw [hinner, Split.finals_of_last hlast]
    rfl
  · obtain ⟨s', hs', hr', hi'⟩ := hp.split?_inner h hlast
    rw [loopsFor_of_split hs', Split.finals_of_next hr' hi' (by omega)]
    rfl

theorem Covered.mem_loops (hc : p.Covered x) (h : p.rules.split? x = none) : x ∈ p.loops := by
  apply hc
  rw [loopsFor_of_unsplit h]
  exact List.mem_singleton_self x

theorem Covered.pair (hp : p.rules.Coherent) (hc : p.Covered x) (h : p.rules.split? x = some s) :
    ∀ y ∈ s.pair, p.Covered y := by
  intro y hy f hf
  apply hc
  rw [loopsFor_split hp h]
  exact List.mem_flatMap.2 ⟨y, hy, hf⟩

theorem covered_of_mem_loops (hp : p.Consistent) (hx : x ∈ p.loops) : p.Covered x := by
  intro f hf
  rw [loopsFor_of_unsplit (hp.loops_unsplit x hx), List.mem_singleton] at hf
  rwa [hf]

theorem Covered.key?_isSome (hp : p.rules.Coherent) (hc : p.Covered x) : (p.loopOrder.key? x).isSome = true := by
  rw [← Option.ne_none_iff_isSome]
  intro hnone
  obtain ⟨hx, hfinals⟩ := LoopOrder.key?_eq_none_iff.1 hnone
  cases hs : p.rules.split? x with
  | none => exact hx (hc.mem_loops hs)
  | some s =>
    have houter := hp.outer_mem_finals hs
    have hloop : s.outer ∈ p.loops := hc _ (by rwa [loopsFor_of_split hs])
    refine hfinals s.outer ?_ hloop
    change s.outer ∈ p.rules.finals x
    rwa [RuleSet.finals, hs]

end Program
end LoopNest
