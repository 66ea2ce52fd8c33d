import Mathlib.Logic.Relation
import LoopNest.Proofs.Rules.Families
/-!
# Proofs.Rules.Acceptance — which rules are accepted, and what the accepted ones say about ranks

A rule is accepted if it is `Fit`, which is about the rule alone, and `Apart` from each older rule: no rank is known to
both (`RuleSet.add_eq_ok_iff`).  A call that is refused changes nothing, so the rule sets that calls lead to, accepted
or refused, are those that accepted calls lead to, and they are coherent (`Offered.coherent`).  In them the three ways
to speak of a chain of ranks agree: the splits one by one (`SplitsTo`), the names by their numbers, and the list of the
ranks in the end (`Expands`).
-/
namespace LoopNest

/-! ## What is asked of a rule -/

theorem Identifier.problem?_eq_none_iff {of : Subject} {x : String} :
    Identifier.problem? of x = none ↔ isWord x.toList = true ∧ x.utf8ByteSize ≤ limit := by
  unfold problem?
  by_cases hempty : x = ""
  · simp [hempty, isWord]
  by_cases hlong : limit < x.utf8ByteSize
  · simp [hempty, hlong]
  by_cases hword : isWord x.toList = true
  · simp [hempty, hlong, hword, Nat.not_lt.1 hlong]
  · simp [hempty, hlong, hword]

namespace Rule

/-- A rule knows its own rank and the ranks that it makes. -/
def Knows (r : Rule) (x : String) : Prop := r.rank = x ∨ r.produces x = true

/-- **No rank is known to both rules.** -/
def Apart (r r' : Rule) : Prop := ∀ x, r.Knows x → ¬ r'.Knows x

theorem Apart.symm {r r' : Rule} (h : r.Apart r') : r'.Apart r := fun x hx hx' => h x hx' hx

/-- What is asked of a rule alone. -/
def Fit (r : Rule) : Prop := Identifier.problem? .rank r.rank = none ∧ r.steps ≠ [] ∧ r.stepsProblem? = none

/-- **A rule is fit** if its rank is a name of at most the length allowed, and it has steps, of known kinds and with
positive sizes, either all static and without leaders or all dynamic and with leaders. -/
theorem fit_iff {r : Rule} : r.Fit ↔
    (Identifier.isWord r.rank.toList = true ∧ r.rank.utf8ByteSize ≤ Identifier.limit) ∧ r.steps ≠ [] ∧
    (∀ s ∈ r.steps, s.kind.isKnown = true ∧ 0 < s.size) ∧
    ((∀ s ∈ r.steps, s.isDynamic = false ∧ s.leader = "") ∨ ∀ s ∈ r.steps, s.isDynamic = true ∧ s.leader ≠ "") := by
  rw [Fit, Identifier.problem?_eq_none_iff, stepsProblem?_eq_none_iff]
  constructor
  · rintro ⟨hname, hne, -, hsteps, huni⟩
    refine ⟨hname, hne, fun s hs => ⟨(hsteps s hs).1, (hsteps s hs).2.1⟩, ?_⟩
    obtain ⟨u, us, hr⟩ := List.exists_cons_of_ne_nil hne
    have hu : u ∈ r.steps := by rw [hr]; exact List.mem_cons_self
    cases hd : u.isDynamic with
    | false =>
      refine .inl fun s hs => ?_
      have hs' : s.isDynamic = false := (huni s hs u hu).trans hd
      exact ⟨hs', by simpa [hs'] using (hsteps s hs).2.2⟩
    | true =>
      refine .inr fun s hs => ?_
      have hs' : s.isDynamic = true := (huni s hs u hu).trans hd
      exact ⟨hs', (hsteps s hs).2.2.1 hs'⟩
  · rintro ⟨hname, hne, hsteps, hkinds⟩
    refine ⟨hname, hne, hne, fun s hs => ⟨(hsteps s hs).1, (hsteps s hs).2, ?_⟩, fun s hs t ht => ?_⟩
    · rcases hkinds with h | h
      · simp [h s hs]
      · simp [h s hs]
    · rcases hkinds with h | h
      · rw [(h s hs).1, (h t ht).1]
      · rw [(h s hs).1, (h t ht).1]

end Rule

namespace RuleSet

variable {p q : RuleSet} {r : Rule} {x : String}

theorem owns_eq_false_iff_knows : p.owns x = false ↔ ∀ r ∈ p.rules, ¬ r.Knows x := by
  simp only [owns_eq_false_iff, Rule.Knows, not_or, Bool.not_eq_true, ne_eq]

/-- **What a new rule has to satisfy**: something about itself, and something symmetric about it and each older one. -/
theorem problem?_eq_none_iff : p.problem? r = none ↔ r.Fit ∧ ∀ r' ∈ p.rules, r'.Apart r := by
  have howns : (p.rule? r.rank = none ∧ p.origin? r.rank = none) ↔ p.owns r.rank = false := by
    simp only [owns, Bool.or_eq_false_iff, Option.isSome_eq_false_iff, Option.isNone_iff_eq_none, and_comm]
  have hpairs : (∀ x ∈ r.splits.flatMap Split.pair, p.owns x = false) ↔ ∀ x, r.produces x = true → p.owns x = false :=
    forall_congr' fun x => imp_congr_left Rule.mem_pairs_iff
  have hapart : (p.owns r.rank = false ∧ ∀ x, r.produces x = true → p.owns x = false) ↔
      ∀ r' ∈ p.rules, r'.Apart r := by
    simp only [owns_eq_false_iff_knows]
    constructor
    · rintro ⟨hrank, hprod⟩ r' hr' x hx' (rfl | hx)
      · exact hrank r' hr' hx'
      · exact hprod x hx r' hr' hx'
    · intro h
      exact ⟨fun r' hr' hx => h r' hr' _ hx (.inl rfl), fun x hx r' hr' hx' => h r' hr' x hx' (.inr hx)⟩
  rw [← hapart, ← howns, ← hpairs, Rule.Fit]
  simp only [problem?, Option.or_eq_none_iff, Option.map_eq_none_iff, List.find?_eq_none, Bool.not_eq_true,
    ite_eq_right_iff, reduceCtorEq, imp_false, List.isEmpty_iff, Option.isSome_eq_false_iff, Option.isNone_iff_eq_none]
  tauto

theorem add_eq_ok_iff : p.add r = .ok q ↔ q = ⟨p.rules ++ [r]⟩ ∧ r.Fit ∧ ∀ r' ∈ p.rules, r'.Apart r := by
  rw [← problem?_eq_none_iff, add]
  cases p.problem? r with
  | none => simp [eq_comm]
  | some e => simp

/-- **A list of rules is accepted when each is fit and any two are apart.** -/
theorem addAll_eq_ok_iff : ∀ {rs : List Rule} {p q : RuleSet}, p.addAll rs = .ok q ↔
    q = ⟨p.rules ++ rs⟩ ∧ (∀ r ∈ rs, r.Fit) ∧ rs.Pairwise Rule.Apart ∧ ∀ r' ∈ p.rules, ∀ r ∈ rs, r'.Apart r
  | [], p, q => by
    rw [addAll, Except.ok.injEq, List.append_nil, eq_comm]
    simp
  | r :: rs, p, q => by
    have hstep : p.addAll (r :: rs) = .ok q ↔ ∃ p', p.add r = .ok p' ∧ p'.addAll rs = .ok q := by
      rw [addAll]
      cases p.add r <;> simp
    simp only [hstep, add_eq_ok_iff, @addAll_eq_ok_iff rs, List.forall_mem_cons, List.pairwise_cons]
    constructor
    · rintro ⟨_, ⟨rfl, hfit, hold⟩, rfl, hfits, hpair, hcross⟩
      simp only [List.forall_mem_append, List.forall_mem_singleton] at hcross
      exact ⟨by simp, ⟨hfit, hfits⟩, ⟨hcross.2, hpair⟩, fun r' hr' => ⟨hold r' hr', hcross.1 r' hr'⟩⟩
    · rintro ⟨rfl, ⟨hfit, hfits⟩, ⟨hnew, hpair⟩, hcross⟩
      refine ⟨_, ⟨rfl, hfit, fun r' hr' => (hcross r' hr').1⟩, by simp, hfits, hpair, ?_⟩
      exact List.forall_mem_append.2 ⟨fun r' hr' => (hcross r' hr').2, List.forall_mem_singleton.2 hnew⟩

end RuleSet

/-! ## Calls, accepted and refused -/

/-- **The names that a rule takes**: its rank, its final ranks and the ranks between its splits. -/
def Rule.family (r : Rule) : List String := r.rank :: (r.finalNames ++ r.intermediates)

theorem Rule.mem_family {r : Rule} {x : String} : x ∈ r.family ↔ r.Knows x := by
  rw [family, Knows, List.mem_cons, List.mem_append, produces_iff, eq_comm]

theorem Rule.apart_iff {r r' : Rule} : r.Apart r' ↔ r.family.Disjoint r'.family := by
  unfold Apart List.Disjoint
  exact forall_congr' fun x => by rw [mem_family, mem_family]

namespace RuleSet

variable {p q : RuleSet} {r : Rule} {s : Split} {x y k : String} {l : List String}

/-- The rules after a call: a refused rule changes nothing. -/
def offer (p : RuleSet) (r : Rule) : RuleSet :=
  match p.add r with
  | .ok q => q
  | .error _ => p

/-- **A rule set that calls lead to**, some of them accepted and some refused. -/
def Offered (p : RuleSet) : Prop := ∃ rs : List Rule, rs.foldl offer empty = p

theorem Offered.induction {P : RuleSet → Prop} (hempty : P empty) (hadd : ∀ p r q, P p → p.add r = .ok q → P q)
    (hp : p.Offered) : P p := by
  obtain ⟨rs, rfl⟩ := hp
  have hoffer : ∀ p r, P p → P (p.offer r) := by
    intro p r hp
    unfold offer
    split
    · exact hadd p r _ hp ‹_›
    · exact hp
  have hall : ∀ (rs : List Rule) (p : RuleSet), P p → P (rs.foldl offer p) := by
    intro rs
    induction rs with
    | nil => exact fun p hp => hp
    | cons r rs ih => exact fun p hp => ih _ (hoffer p r hp)
  exact hall rs empty hempty

theorem foldl_offer_of_addAll : ∀ (rs : List Rule) {p q : RuleSet}, p.addAll rs = .ok q → rs.foldl offer p = q
  | [], p, q, h => by cases h; rfl
  | r :: rs, p, q, h => by
    unfold addAll at h
    cases hadd : p.add r with
    | error e => rw [hadd] at h; cases h
    | ok p' =>
      rw [hadd] at h
      rw [List.foldl_cons, offer, hadd]
      exact foldl_offer_of_addAll rs h

theorem Offered.coherent (hp : p.Offered) : p.Coherent :=
  hp.induction coherent_empty fun _ _ _ hp h => hp.add h

theorem Offered.separate (hp : p.Offered) : p.Separate :=
  hp.induction separate_empty fun _ _ _ hp h => hp.add h

/-! ## Where a rank comes from -/

/-- One split makes the rank `y` from the rank `x`. -/
def SplitsTo (p : RuleSet) (x y : String) : Prop := ∃ pair, p.pairOf x = .ok pair ∧ y ∈ pair

theorem pairOf_eq_ok_iff : p.pairOf x = .ok l ↔ ∃ s, p.split? x = some s ∧ s.pair = l := by
  unfold pairOf
  cases p.split? x <;> simp

theorem finalsOf_eq_ok_iff : p.finalsOf x = .ok l ↔ ∃ s, p.split? x = some s ∧ s.finals = l := by
  unfold finalsOf
  cases p.split? x <;> simp

theorem splitsTo_iff : p.SplitsTo x y ↔ ∃ s, p.split? x = some s ∧ y ∈ s.pair := by
  unfold SplitsTo
  simp only [pairOf_eq_ok_iff]
  constructor
  · rintro ⟨_, ⟨s, hs, rfl⟩, hy⟩
    exact ⟨s, hs, hy⟩
  · rintro ⟨s, hs, hy⟩
    exact ⟨s.pair, ⟨s, hs, rfl⟩, hy⟩

theorem Coherent.rule?_of_mem (hp : p.Coherent) (hr : r ∈ p.rules) : p.rule? r.rank = some r := by
  obtain ⟨s, hs, rfl, hi⟩ := hp.split?_of_mem hr
  exact hp.rule?_eq hs hi

/-- **Splits lead from the rank of a rule to every rank that it splits.** -/
theorem Coherent.splits_to_source (hp : p.Coherent) (hs : p.split? x = some s) :
    Relation.ReflTransGen p.SplitsTo s.rule.rank x := by
  induction hi : s.index generalizing x s with
  | zero =>
    have hsrc := (hp.split?_eq_some_iff.1 hs).2.2
    rw [Split.source, if_pos hi] at hsrc
    rw [hsrc]
  | succ i ih =>
    -- The step before makes the rank that this one splits.
    obtain ⟨hr, hstep, hsrc⟩ := hp.split?_eq_some_iff.1 hs
    have hlt := Split.index_lt hstep
    obtain ⟨s', hs', hr', hi'⟩ := Rule.exists_split (r := s.rule) (i := i) (by omega)
    have hsplit : p.split? s'.source = some s' :=
      hp.split?_eq_some_iff.2 ⟨hr' ▸ hr, hr' ▸ (Rule.mem_splits.1 hs').2, rfl⟩
    have hinner : s'.inner = x := by
      rw [Split.inner_eq_source hr'.symm (by omega) (by rw [hr']; exact hlt), hsrc]
    have hbefore := ih hsplit hi'
    rw [hr'] at hbefore
    exact hbefore.tail (splitsTo_iff.2 ⟨s', hsplit, Split.mem_pair.2 (.inr hinner.symm)⟩)

theorem Coherent.made_of_splits (hp : p.Coherent) (hr : r ∈ p.rules) (h : Relation.TransGen p.SplitsTo r.rank x) :
    ∃ y s, p.split? y = some s ∧ s.rule = r ∧ x ∈ s.pair := by
  induction h with
  | single h =>
    obtain ⟨s, hs, hx⟩ := splitsTo_iff.1 h
    obtain ⟨s', hs', hr', -⟩ := hp.split?_of_mem hr
    rw [hs] at hs'
    cases hs'
    exact ⟨_, s, hs, hr', hx⟩
  | tail _ h ih =>
    -- What a split makes is split by the same rule again.
    obtain ⟨y, s, hs, hrule, hy⟩ := ih
    obtain ⟨s', hs', hx⟩ := splitsTo_iff.1 h
    exact ⟨_, s', hs', (hp.rule_of_pair hs hy hs').trans hrule, hx⟩

/-- **A rule produces what splits lead to from its rank.** -/
theorem Coherent.produces_iff (hp : p.Coherent) (hr : r ∈ p.rules) :
    r.produces x = true ↔ Relation.TransGen p.SplitsTo r.rank x := by
  constructor
  · intro h
    obtain ⟨s, hs, hx⟩ := List.mem_flatMap.1 (Rule.mem_pairs_iff.2 h)
    obtain ⟨rfl, hstep⟩ := Rule.mem_splits.1 hs
    have hsplit : p.split? s.source = some s := hp.split?_eq_some_iff.2 ⟨hr, hstep, rfl⟩
    exact .tail' (hp.splits_to_source hsplit) (splitsTo_iff.2 ⟨s, hsplit, hx⟩)
  · intro h
    obtain ⟨y, s, hs, rfl, hx⟩ := hp.made_of_splits hr h
    exact hp.produces_of_pair hs hx

theorem Separate.origin?_eq_some_iff (hp : p.Separate) :
    p.origin? x = some k ↔ ∃ r ∈ p.rules, r.rank = k ∧ r.produces x = true := by
  have hfound : ∀ {r}, p.rules.find? (fun r => r.produces x) = some r → r ∈ p.rules ∧ r.produces x = true :=
    fun h => ⟨List.mem_of_find?_eq_some h, by simpa using List.find?_some h⟩
  unfold origin?
  rw [Option.map_eq_some_iff]
  constructor
  · rintro ⟨r, hr, rfl⟩
    exact ⟨r, (hfound hr).1, rfl, (hfound hr).2⟩
  · rintro ⟨r, hr, rfl, hx⟩
    cases hfind : p.rules.find? (fun r => r.produces x) with
    | none => exact absurd hx (List.find?_eq_none.1 hfind r hr)
    | some r' => exact ⟨r', rfl, by rw [hp.rule_unique (hfound hfind).1 hr (hfound hfind).2 hx]⟩

theorem Coherent.isPartitioned_iff (hp : p.Coherent) :
    p.isPartitioned x = true ↔ ∃ r ∈ p.rules, x ∈ r.rank :: r.intermediates := by
  rw [← mem_sources hp.steps_ne_nil, ← not_iff_not, ← split?_eq_none_iff, isPartitioned, Bool.not_eq_true,
    Option.isSome_eq_false_iff, Option.isNone_iff_eq_none]

theorem Coherent.split?_of_source (hp : p.Coherent) (hr : r ∈ p.rules) (hx : x ∈ r.rank :: r.intermediates) :
    ∃ s, p.split? x = some s ∧ s.rule = r := by
  rw [← Rule.map_source_splits (hp.steps_ne_nil r hr), List.mem_map] at hx
  obtain ⟨s, hs, rfl⟩ := hx
  obtain ⟨rfl, hstep⟩ := Rule.mem_splits.1 hs
  exact ⟨s, hp.split?_eq_some_iff.2 ⟨hr, hstep, rfl⟩, rfl⟩

theorem Coherent.isStatic_source (hp : p.Coherent) (hr : r ∈ p.rules) (hx : x ∈ r.rank :: r.intermediates) :
    p.isStatic x = p.isStatic r.rank ∧ p.isDynamic x = p.isDynamic r.rank ∧ p.isStatic x = !p.isDynamic x := by
  obtain ⟨s, hs, rfl⟩ := hp.split?_of_source hr hx
  obtain ⟨s', hs', hr', -⟩ := hp.split?_of_mem hr
  have heq := hp.isDynamic_eq hs hs' hr'
  simp only [isStatic, isDynamic, hs, hs', Option.any_some, heq, and_self]

/-! ## Splitting to the end -/

/-- **The ranks that a rank becomes when its inner part is split again and again**, outermost first. -/
inductive Expands (p : RuleSet) : String → List String → Prop where
  | last {x outer inner : String} : p.pairOf x = .ok [outer, inner] → p.isPartitioned inner = false →
      Expands p x [outer, inner]
  | next {x outer inner : String} {l : List String} : p.pairOf x = .ok [outer, inner] → Expands p inner l →
      Expands p x (outer :: l)

theorem Coherent.expands_finals (hp : p.Coherent) (hs : p.split? x = some s) : p.Expands x s.finals := by
  have hlt := Split.index_lt (hp.split?_eq_some_iff.1 hs).2.1
  have hpair : p.pairOf x = .ok [s.outer, s.inner] := pairOf_eq_ok_iff.2 ⟨s, hs, rfl⟩
  -- Each step leaves one split less, down to the last one of the rule.
  induction hn : s.remaining generalizing x s with
  | zero =>
    unfold Split.remaining at hn
    omega
  | succ n ih =>
    by_cases hlast : s.index + 1 = s.rule.steps.length
    · rw [Split.finals_of_last hlast]
      refine .last hpair ?_
      rw [isPartitioned, hp.split?_of_mem_finals hs (by simp [Split.finals_of_last hlast])]
      rfl
    · obtain ⟨s', hs', hr', hi'⟩ := hp.split?_inner hs hlast
      rw [Split.finals_of_next hr' hi' (by omega)]
      have hlt' := Split.index_lt (hp.split?_eq_some_iff.1 hs').2.1
      refine .next hpair (ih hs' hlt' (pairOf_eq_ok_iff.2 ⟨s', hs', rfl⟩) ?_)
      unfold Split.remaining at hn ⊢
      rw [hr', hi']
      omega

theorem Coherent.finalsOf_eq_ok_iff (hp : p.Coherent) : p.finalsOf x = .ok l ↔ p.Expands x l := by
  constructor
  · intro h
    obtain ⟨s, hs, rfl⟩ := RuleSet.finalsOf_eq_ok_iff.1 h
    exact hp.expands_finals hs
  · intro h
    rw [RuleSet.finalsOf_eq_ok_iff]
    induction h with
    | @last x outer inner hpair hinner =>
      obtain ⟨s, hs, heq⟩ := pairOf_eq_ok_iff.1 hpair
      cases heq
      refine ⟨s, hs, Split.finals_of_last ?_⟩
      by_contra hlast
      obtain ⟨s', hs', -⟩ := hp.split?_inner hs hlast
      rw [isPartitioned, hs'] at hinner
      cases hinner
    | @next x outer inner l hpair _ ih =>
      obtain ⟨s, hs, heq⟩ := pairOf_eq_ok_iff.1 hpair
      cases heq
      obtain ⟨s', hs', rfl⟩ := ih
      have hlast : s.index + 1 ≠ s.rule.steps.length := by
        intro hlast
        rw [hp.split?_of_mem_finals hs (by simp [Split.finals_of_last hlast])] at hs'
        cases hs'
      obtain ⟨s'', hs'', hr'', hi''⟩ := hp.split?_inner hs hlast
      rw [hs'] at hs''
      cases hs''
      have hlt := Split.index_lt (hp.split?_eq_some_iff.1 hs').2.1
      rw [hr''] at hlt
      exact ⟨s, hs, Split.finals_of_next hr'' hi'' hlt⟩

/-- **Rule sets stay coherent.**  After any calls, accepted and refused, a rule is accepted exactly if its rank is a
name, it has steps, each well formed and all static without leaders or all dynamic with leaders, and none of its names
is a name of an accepted rule; it is then put after these.  A rank comes from the accepted rank that leads to it by
splits, of which there is one at most.  The ranks that are split are the accepted ones and those between their splits,
and static or dynamic all together.  The final ranks of a rank are those that it becomes when its inner part is split
again and again. -/
theorem offered_families (hp : p.Offered) :
    (∀ r q, p.add r = .ok q ↔ q = ⟨p.rules ++ [r]⟩ ∧
      (Identifier.isWord r.rank.toList = true ∧ r.rank.utf8ByteSize ≤ Identifier.limit) ∧ r.steps ≠ [] ∧
      (∀ s ∈ r.steps, s.kind.isKnown = true ∧ 0 < s.size) ∧
      ((∀ s ∈ r.steps, s.isDynamic = false ∧ s.leader = "") ∨ ∀ s ∈ r.steps, s.isDynamic = true ∧ s.leader ≠ "") ∧
      ∀ r' ∈ p.rules, r'.family.Disjoint r.family) ∧
    (∀ x k, p.origin? x = some k ↔ k ∈ p.ranks ∧ Relation.TransGen p.SplitsTo k x) ∧
    (∀ x, ∀ k ∈ p.ranks, ∀ k' ∈ p.ranks, Relation.TransGen p.SplitsTo k x → Relation.TransGen p.SplitsTo k' x →
      k = k') ∧
    (∀ x, p.isPartitioned x = true ↔ ∃ k ∈ p.ranks, x ∈ k :: p.intermediates k) ∧
    (∀ k ∈ p.ranks, ∀ x ∈ k :: p.intermediates k,
      p.isStatic x = p.isStatic k ∧ p.isDynamic x = p.isDynamic k ∧ p.isStatic x = !p.isDynamic x) ∧
    ∀ x l, p.finalsOf x = .ok l ↔ p.Expands x l := by
  have hc := hp.coherent
  have hnames : ∀ r ∈ p.rules, r.rank :: p.intermediates r.rank = r.rank :: r.intermediates := by
    intro r hr
    rw [intermediates, hc.rule?_of_mem hr]
    rfl
  have horigin : ∀ x k, p.origin? x = some k ↔ k ∈ p.ranks ∧ Relation.TransGen p.SplitsTo k x := by
    intro x k
    rw [hp.separate.origin?_eq_some_iff]
    constructor
    · rintro ⟨r, hr, rfl, hx⟩
      exact ⟨List.mem_map_of_mem hr, (hc.produces_iff hr).1 hx⟩
    · rintro ⟨hk, hx⟩
      obtain ⟨r, hr, rfl⟩ := List.mem_map.1 hk
      exact ⟨r, hr, rfl, (hc.produces_iff hr).2 hx⟩
  refine ⟨fun r q => ?_, horigin, fun x k hk k' hk' h h' => ?_, fun x => ?_, fun k hk x hx => ?_, fun x l =>
    hc.finalsOf_eq_ok_iff⟩
  · rw [add_eq_ok_iff, Rule.fit_iff]
    simp only [Rule.apart_iff, and_assoc]
  · exact Option.some.inj (((horigin x k).2 ⟨hk, h⟩).symm.trans ((horigin x k').2 ⟨hk', h'⟩))
  · simp only [hc.isPartitioned_iff, ranks, List.mem_map, exists_exists_and_eq_and]
    exact exists_congr fun r => and_congr_right fun hr => by rw [hnames r hr]
  · obtain ⟨r, hr, rfl⟩ := List.mem_map.1 hk
    rw [hnames r hr] at hx
    exact hc.isStatic_source hr hx

/-- A cut into pieces of two. -/
def halving : Step := ⟨.uniformShape, 2, ""⟩

/-- Three rules are offered.  The second one is refused, because the first one of its twelve final ranks has a rule of
its own; with one step less it is accepted. -/
def overlaid : RuleSet :=
  [⟨"K11", [halving]⟩, ⟨"K", List.replicate 11 halving⟩, ⟨"K", List.replicate 10 halving⟩].foldl offer empty

/-- The names of the two accepted rules do not meet, although one of the ranks looks like a final rank of the other. -/
theorem offered_families_overlaid : overlaid.Offered ∧
    overlaid.rules = [⟨"K11", [halving]⟩, ⟨"K", List.replicate 10 halving⟩] ∧
    Relation.TransGen overlaid.SplitsTo "K" "K0" ∧ ¬ Relation.TransGen overlaid.SplitsTo "K" "K11" ∧
    overlaid.Expands "K2I" ["K2", "K1", "K0"] ∧ overlaid.Expands "K11" ["K111", "K110"] := by
  have hp : overlaid.Offered := ⟨_, rfl⟩
  obtain ⟨-, horigin, -, -, -, hfinals⟩ := offered_families hp
  have hnone : overlaid.origin? "K11" = none := by decide +kernel
  refine ⟨hp, by decide +kernel, ((horigin _ _).1 (by decide +kernel)).2, fun h => ?_,
    (hfinals _ _).1 (by decide +kernel), (hfinals _ _).1 (by decide +kernel)⟩
  rw [(horigin "K11" "K").2 ⟨by decide +kernel, h⟩] at hnone
  cases hnone

end RuleSet
end LoopNest
