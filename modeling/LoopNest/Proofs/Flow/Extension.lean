import LoopNest.Proofs.Flow.Inventory
import LoopNest.Proofs.Program.Pending
/-!
# Proofs.Flow.Extension — building after rules were added to a validated program

Rules that are added later are accepted by the older rules, and not checked against tensors and loops.  So a declared
rank may be one between two splits, and a rank may lose its loop.  What still holds is that the rules are coherent.
Each routine of the builder then fails for some causes and no others (`FailsFor`).  The partitioning of ranks fails
where a leader is not declared (`failsFor_rankPart`): a declared rank is pending when its turn comes, whatever was split
before it.  A walk fails where the loop order cannot sort what a split leaves (`failsFor_walk`): each move takes
something off the count of steps, so it does come there or to its end.
-/
namespace LoopNest

/-! ## Causes of failures -/

/-- **A result is a failure exactly if there is a cause for it**, and a cause of this failure. -/
structure FailsFor {α : Type} (cause : Problem → Prop) (r : Except Problem α) : Prop where
  blame : ∀ e, r = .error e → cause e
  clear : ∀ a, r = .ok a → ∀ e, ¬ cause e

namespace FailsFor

variable {α β : Type} {cause cause' : Problem → Prop} {r : Except Problem α} {s : Except Problem β}

theorem itself (r : Except Problem α) : FailsFor (fun e => r = .error e) r := by
  refine ⟨fun _ h => h, fun a ha e he => ?_⟩
  rw [ha] at he
  cases he

theorem unfailing {a : α} (h : r = .ok a) (hnone : ∀ e, ¬ cause e) : FailsFor cause r := by
  refine ⟨fun e he => ?_, fun _ _ => hnone⟩
  rw [h] at he
  cases he

theorem congr (h : FailsFor cause r) (hiff : ∀ e, cause e ↔ cause' e) : FailsFor cause' r :=
  ⟨fun e he => (hiff e).1 (h.blame e he), fun a ha e he => h.clear a ha e ((hiff e).2 he)⟩

theorem map (h : FailsFor cause r) (f : α → β) : FailsFor cause (r.map f) := by
  cases r with
  | ok a => exact .unfailing rfl (h.clear a rfl)
  | error e =>
    refine ⟨fun e' he => ?_, fun b hb => by cases hb⟩
    cases he
    exact h.blame e rfl

/-- **One thing after the other**: the second is only begun if the first does not fail. -/
theorem andThen (h : FailsFor cause r) (herror : ∀ e, r = .error e → s = .error e)
    (hok : ∀ a, r = .ok a → FailsFor cause' s) : FailsFor (fun e => cause e ∨ cause' e) s := by
  cases hr : r with
  | ok a =>
    refine ⟨fun e he => .inr ((hok a hr).blame e he), fun b hb e => ?_⟩
    rintro (he | he)
    · exact h.clear a hr e he
    · exact (hok a hr).clear b hb e he
  | error e =>
    rw [herror e hr]
    refine ⟨fun e' he => .inl ?_, fun b hb => by cases hb⟩
    cases he
    exact h.blame e hr

end FailsFor

namespace Program

variable {p q : Program}

/-- **A program with rules added later**, one after the other; each is accepted by the rules before it. -/
inductive Extended (p : Program) : Program → Prop where
  | none : Extended p p
  | more {q q' : Program} {r : Rule} : Extended p q → q.extend r = .ok q' → Extended p q'

theorem Extended.coherent (h : Extended p q) (hp : p.rules.Coherent) : q.rules.Coherent := by
  induction h with
  | none => exact hp
  | @more q q' r _ hext ih =>
    rw [extend] at hext
    cases hadd : q.rules.add r with
    | error e => rw [hadd] at hext; cases hext
    | ok rules =>
      rw [hadd] at hext
      cases hext
      exact ih.add hadd

end Program

namespace Wiring

variable {p : Program} {t : Tensor} {root x y : String} {s : Split} {c d : Cursor} {es : List Dependency} {e : Problem}

/-! ## The ranks of a tensor -/

/-- A rank between two splits has no rule of its own. -/
theorem sources_of_index_ne (hp : p.rules.Coherent) (hs : p.rules.split? x = some s) (h0 : s.index ≠ 0) :
    sources p x = [x] := by
  have hnone : p.rules.rule? x = none := by
    rw [RuleSet.rule?, List.find?_eq_none]
    intro r hr hrank
    -- the first split of a rule for `x` would be another one with the same source
    obtain ⟨u, hu, rfl, hi⟩ := Rule.exists_split (List.length_pos_iff.2 (hp.steps_ne_nil r hr))
    have hsource : u.source = x := by rw [Split.source, if_pos hi]; exact beq_iff_eq.1 hrank
    rw [hp.split?_eq_some_iff.2 ⟨hr, (Rule.mem_splits.1 hu).2, hsource⟩] at hs
    cases hs
    exact h0 hi
  rw [sources, RuleSet.intermediates, hnone]
  rfl

theorem exists_split_of_mem_sources (hp : p.rules.Coherent) (hs : p.rules.split? x = some s) (hy : y ∈ sources p x) :
    ∃ u, p.rules.split? y = some u := by
  by_cases h0 : s.index = 0
  · obtain ⟨u, hu, -⟩ := (mem_sources hp hs h0).1 hy
    exact ⟨u, hu⟩
  · rw [sources_of_index_ne hp hs h0, List.mem_singleton] at hy
    exact ⟨s, hy ▸ hs⟩

theorem exists_split_of_mem_dynamicSources (hp : p.rules.Coherent) (hx : x ∈ dynamicSources p t) :
    ∃ s, p.rules.split? x = some s := by
  obtain ⟨y, hy, hx⟩ := List.mem_flatMap.1 hx
  obtain ⟨u, hu, -⟩ := exists_split_of_isDynamic (List.mem_filter.1 hy).2
  exact exists_split_of_mem_sources hp hu hx

/-- **A pending rank with a split gives way to other ranks**, and all others stay pending: those that its rule makes in
the end or, if it is one between two splits, the two that come next. -/
theorem splitEach_sources (hp : p.rules.Coherent) (hs : p.rules.split? x = some s) {rest : List String}
    (hperm : c.pending.Perm (x :: rest)) :
    ∃ d made, splitEach p c (sources p x) = .ok d ∧ d.pending.Perm (made ++ rest) := by
  by_cases h0 : s.index = 0
  · obtain ⟨d, hd, hdp⟩ := splitEach_total hp _ rfl hs hperm
    rw [h0, List.drop_zero, ← sources_eq hp hs h0] at hd
    exact ⟨d, _, hd, hdp⟩
  · obtain ⟨before, after, hc, hsplit⟩ := Cursor.split_of_mem (hperm.mem_iff.2 List.mem_cons_self) hs
    have hmid : (before ++ after).Perm rest := List.Perm.cons_inv (List.perm_middle.symm.trans (hc ▸ hperm))
    refine ⟨_, s.pair, by rw [sources_of_index_ne hp hs h0, splitEach, hsplit]; rfl, ?_⟩
    change (before ++ s.pair ++ after).Perm _
    rw [List.append_assoc]
    exact (List.perm_append_comm_assoc before s.pair after).trans (hmid.append_left s.pair)

/-- **A leader is missing**: a step that splits `x` is led by neither the tensor itself nor a declared one. -/
def Leaderless (p : Program) (root x : String) (e : Problem) : Prop :=
  ∃ s, p.rules.split? x = some s ∧ s.step.leader ≠ root ∧ p.tensor? s.step.leader = none ∧
    e = .wiringLeaderUndeclared root x s.step.leader

theorem failsFor_dynamicSplit (hs : p.rules.split? x = some s) :
    FailsFor (Leaderless p root x) (dynamicSplit p root x) := by
  have hcause : ∀ e, Leaderless p root x e ↔ s.step.leader ≠ root ∧ p.tensor? s.step.leader = none ∧
      e = .wiringLeaderUndeclared root x s.step.leader := by
    simp [Leaderless, hs]
  rw [dynamicSplit, hs]
  dsimp only
  split
  · rename_i hself
    exact .unfailing rfl fun e he => ((hcause e).1 he).1 hself
  rename_i hself
  split
  · rename_i hsome
    refine .unfailing rfl fun e he => ?_
    rw [((hcause e).1 he).2.1] at hsome
    cases hsome
  · rename_i hnone
    refine (FailsFor.itself _).congr fun e => ?_
    rw [hcause, Except.error.injEq, eq_comm]
    simp only [ne_eq, hself, not_false_eq_true, Option.not_isSome_iff_eq_none.1 hnone, true_and]

theorem failsFor_dynamicPart (root : String) : ∀ srcs : List String, (∀ x ∈ srcs, ∃ s, p.rules.split? x = some s) →
    FailsFor (fun e => ∃ x ∈ srcs, Leaderless p root x e) (dynamicPart p root srcs)
  | [], _ => .unfailing rfl (by simp)
  | x :: srcs, h => by
    obtain ⟨s, hs⟩ := h x List.mem_cons_self
    have hrest := failsFor_dynamicPart root srcs fun y hy => h y (List.mem_cons_of_mem _ hy)
    have hboth : FailsFor (fun e => Leaderless p root x e ∨ ∃ y ∈ srcs, Leaderless p root y e)
        (dynamicPart p root (x :: srcs)) := by
      refine (failsFor_dynamicSplit hs).andThen (fun e he => by rw [dynamicPart, he]) fun es hes => ?_
      have hcons : dynamicPart p root (x :: srcs) = (dynamicPart p root srcs).map (es ++ ·) := by
        rw [dynamicPart, hes]
        cases dynamicPart p root srcs <;> rfl
      rw [hcons]
      exact hrest.map _
    exact hboth.congr fun e => by simp only [List.mem_cons, exists_eq_or_imp]

/-- **The ranks of a tensor fail for missing leaders only.**  A static rank is pending when its turn comes: of all ranks
that are still to come, none goes when another one is split. -/
theorem failsFor_rankPart (hp : p.rules.Coherent) (root : String) :
    ∀ (rs : List String) {c : Cursor} {rest : List String}, c.pending.Perm (rs ++ rest) →
    FailsFor (fun e => ∃ x ∈ (rs.filter p.rules.isDynamic).flatMap (sources p), Leaderless p root x e)
      (rankPart p root c rs)
  | [], c, _, _ => .unfailing rfl (by simp)
  | x :: rs, c, rest, hperm => by
    by_cases hst : p.rules.isStatic x = true
    · obtain ⟨s, hs, -⟩ := exists_split_of_isStatic hst
      obtain ⟨es, hes, -⟩ := staticPart_total hs root
      obtain ⟨d, made, hd, hdp⟩ := splitEach_sources hp hs hperm
      have hrest := failsFor_rankPart hp root rs (hdp.trans (List.perm_append_comm_assoc made rs rest))
      have hdyn : ¬ p.rules.isDynamic x = true := fun hdyn => by
        rw [RuleSet.isStatic_of_isDynamic hdyn] at hst
        cases hst
      rw [List.filter_cons_of_neg hdyn, rankPart, if_pos hst, hes, hd]
      exact hrest.map _
    -- no other rank is split yet, and this one stays pending beside those that are still to come
    have hrest := failsFor_rankPart hp root rs (c := c) (hperm.trans List.perm_middle.symm)
    by_cases hdyn : p.rules.isDynamic x = true
    · obtain ⟨s, hs, -⟩ := exists_split_of_isDynamic hdyn
      have hsplits := fun y hy => exists_split_of_mem_sources hp hs (y := y) hy
      have hboth : FailsFor (fun e => (∃ y ∈ sources p x, Leaderless p root y e) ∨
          ∃ y ∈ (rs.filter p.rules.isDynamic).flatMap (sources p), Leaderless p root y e)
          (rankPart p root c (x :: rs)) := by
        refine (failsFor_dynamicPart root (sources p x) hsplits).andThen (fun e he => ?_) fun es hes => ?_
        · rw [rankPart, if_neg hst, if_pos hdyn, he]
        · rw [rankPart, if_neg hst, if_pos hdyn, hes]
          exact hrest.map _
      refine hboth.congr fun e => ?_
      simp only [List.filter_cons_of_pos hdyn, List.flatMap_cons, List.mem_append, or_and_right, exists_or]
    · rw [List.filter_cons_of_neg hdyn, rankPart, if_neg hst, if_neg hdyn]
      exact hrest.map _

theorem failsFor_rankPart_declared (hp : p.rules.Coherent) (t : Tensor) :
    FailsFor (fun e => ∃ x ∈ dynamicSources p t, Leaderless p t.root x e)
      (rankPart p t.root (p.cursor t) t.ranks) :=
  failsFor_rankPart hp t.root t.ranks (by rw [List.append_nil]; exact List.Perm.refl _)

/-! ## Walks -/

/-- **A walk is stuck**: its next rank is split, and what that leaves cannot be sorted. -/
def Stuck (p : Program) (c : Cursor) (e : Problem) : Prop :=
  ∃ x d, c.peek? = some x ∧ p.rules.isDynamic x = true ∧ c.split p.rules x = .ok d ∧
    p.loopOrder.apply d = .error (e, d)

theorem peek?_eq_some : c.peek? = some x ↔ ∃ rest, c.pending = x :: rest := by
  unfold Cursor.peek?
  cases c.pending <;> simp

/-- **A cursor has come to the end, or moves, or is stuck.** -/
theorem move_or_stuck (p : Program) (c : Cursor) : c.pending = [] ∨ (∃ es d, Move p c es d) ∨ ∃ e, Stuck p c e := by
  cases hpend : c.pending with
  | nil => exact .inl rfl
  | cons x rest =>
    right
    cases hdyn : p.rules.isDynamic x with
    | false => exact .inl ⟨_, _, .loop (Cursor.pop?_eq_some.2 ⟨rest, hpend, rfl⟩) hdyn⟩
    | true =>
      obtain ⟨s, hs, -⟩ := exists_split_of_isDynamic hdyn
      have hsplit := split_head hpend hs
      cases happly : p.loopOrder.apply (c.withPending (s.pair ++ rest)) with
      | error e =>
        obtain ⟨e, d⟩ := e
        obtain ⟨-, rfl⟩ := LoopOrder.apply_eq_error happly
        exact .inr ⟨e, x, _, peek?_eq_some.2 ⟨rest, hpend⟩, hdyn, hsplit, happly⟩
      | ok f =>
        have hmeet : ∃ r, meetSplit p c x = .ok r := by
          rw [meetSplit, hsplit]
          dsimp only
          rw [happly]
          exact ⟨_, rfl⟩
        obtain ⟨r, hmeet⟩ := hmeet
        exact .inl ⟨r.1, r.2, .split hpend hdyn hmeet⟩

/-- **Every walk comes to an end, or gets stuck.** -/
theorem exists_trip (hp : p.rules.Coherent) (c : Cursor) :
    ∃ es d, Trip p c es d ∧ (d.pending = [] ∨ ∃ e, Stuck p d e) := by
  -- on the steps that are left: a move takes one off at least
  induction hn : stepsLeft p c using Nat.strongRecOn generalizing c with
  | ind n ih =>
    subst hn
    rcases move_or_stuck p c with hnil | ⟨es, d, hm⟩ | hstuck
    · exact ⟨[], c, .stay c, .inl hnil⟩
    · obtain ⟨fs, f, htrip, hend⟩ := ih _ (hm.stepsLeft_lt hp) d rfl
      exact ⟨_, f, .go hm htrip, hend⟩
    · exact ⟨[], c, .stay c, .inr hstuck⟩

/-- **A walk with enough steps goes on with enough steps** from wherever a trip leads. -/
theorem Trip.exists_rest (hp : p.rules.Coherent) (h : Trip p c es d) : ∀ fuel, stepsLeft p c ≤ fuel →
    ∃ rest, stepsLeft p d ≤ rest ∧ walk p fuel c = (walk p rest d).map (fun f => (es ++ f.1, f.2)) := by
  induction h with
  | stay c =>
    intro fuel hfuel
    refine ⟨fuel, hfuel, ?_⟩
    cases walk p fuel c <;> rfl
  | @go c d f es fs hm _ ih =>
    intro fuel hfuel
    have hlt := hm.stepsLeft_lt hp
    obtain ⟨fuel, rfl⟩ := Nat.exists_eq_add_one_of_ne_zero (by omega : fuel ≠ 0)
    obtain ⟨rest, hrest, hwalk⟩ := ih fuel (by omega)
    refine ⟨rest, hrest, ?_⟩
    rw [hm.walk_succ, hwalk]
    cases walk p rest f with
    | error e => rfl
    | ok g => simp only [Except.map, List.append_assoc]

theorem Stuck.walk_eq (h : Stuck p c e) {fuel : Nat} (hfuel : stepsLeft p c ≤ fuel) : walk p fuel c = .error e := by
  obtain ⟨x, d, hpeek, hdyn, hsplit, happly⟩ := h
  obtain ⟨rest, hpend⟩ := peek?_eq_some.1 hpeek
  have hpos : 0 < stepsLeft p c := stepsLeft_pos (by rw [hpend]; exact List.cons_ne_nil _ _)
  obtain ⟨fuel, rfl⟩ := Nat.exists_eq_add_one_of_ne_zero (by omega : fuel ≠ 0)
  rw [walk, Cursor.pop?_eq_some.2 ⟨rest, hpend, rfl⟩]
  simp only [hdyn, if_true, meetSplit, hsplit, happly]

/-- **With enough steps, a walk fails exactly where it is stuck.** -/
theorem failsFor_walk (hp : p.rules.Coherent) {fuel : Nat} (hfuel : stepsLeft p c ≤ fuel) :
    FailsFor (fun e => ∃ es d, Trip p c es d ∧ Stuck p d e) (walk p fuel c) := by
  have hstuck : ∀ {es d e}, Trip p c es d → Stuck p d e → walk p fuel c = .error e := fun htrip h => by
    obtain ⟨rest, hrest, hwalk⟩ := htrip.exists_rest hp fuel hfuel
    rw [hwalk, h.walk_eq hrest]
    rfl
  obtain ⟨es, d, htrip, hnil | ⟨e, hend⟩⟩ := exists_trip hp c
  · obtain ⟨rest, -, hwalk⟩ := htrip.exists_rest hp fuel hfuel
    rw [walk_of_pending_eq_nil hnil] at hwalk
    refine .unfailing hwalk ?_
    rintro e ⟨fs, f, htrip', h⟩
    rw [hstuck htrip' h] at hwalk
    cases hwalk
  · have hwalk := hstuck htrip hend
    rw [hwalk]
    refine (FailsFor.itself _).congr fun e' => ⟨fun he => ?_, ?_⟩
    · cases he
      exact ⟨es, d, htrip, hend⟩
    · rintro ⟨fs, f, htrip', h⟩
      rw [← hwalk, hstuck htrip' h]

/-- **The number of steps does not matter if it is enough**: a walk has one outcome, and nothing is pending then unless
it fails. -/
theorem exists_outcome (hp : p.rules.Coherent) (c : Cursor) : ∃ outcome,
    (∀ es d, outcome = .ok (es, d) → d.pending = []) ∧ ∀ fuel, stepsLeft p c ≤ fuel → walk p fuel c = outcome := by
  obtain ⟨es, d, htrip, hnil | ⟨e, hend⟩⟩ := exists_trip hp c
  · refine ⟨.ok (es ++ [], d), fun fs f heq => ?_, fun fuel hfuel => ?_⟩
    · cases heq
      exact hnil
    · obtain ⟨rest, -, hwalk⟩ := htrip.exists_rest hp fuel hfuel
      rw [hwalk, walk_of_pending_eq_nil hnil]
      rfl
  · refine ⟨.error e, fun fs f heq => (by cases heq), fun fuel hfuel => ?_⟩
    obtain ⟨rest, hrest, hwalk⟩ := htrip.exists_rest hp fuel hfuel
    rw [hwalk, hend.walk_eq hrest]
    rfl

/-! ## The whole program -/

/-- **What the loop order has to sort for a tensor**: its ranks with the static splits made, and what each split on the
walk leaves. -/
inductive Sorts (p : Program) (t : Tensor) : Cursor → Prop where
  | opened {es : List Dependency} {c : Cursor} : rankPart p t.root (p.cursor t) t.ranks = .ok (es, c) → Sorts p t c
  | met {c d : Cursor} {x : String} : Stands p t c → c.peek? = some x → p.rules.isDynamic x = true →
      c.split p.rules x = .ok d → Sorts p t d

/-- **Why the dependencies of a tensor cannot be listed**: a leader is missing, or something cannot be sorted. -/
def TensorFault (p : Program) (t : Tensor) (e : Problem) : Prop :=
  (∃ x ∈ dynamicSources p t, Leaderless p t.root x e) ∨ ∃ c, Sorts p t c ∧ p.loopOrder.apply c = .error (e, c)

theorem exists_sorts_iff (hranks : rankPart p t.root (p.cursor t) t.ranks = .ok (es, c)) :
    (∃ d, Sorts p t d ∧ p.loopOrder.apply d = .error (e, d)) ↔ p.loopOrder.apply c = .error (e, c) ∨
      ∃ start, p.loopOrder.apply c = .ok start ∧ ∃ fs d, Trip p start fs d ∧ Stuck p d e := by
  constructor
  · rintro ⟨d, hd, he⟩
    cases hd with
    | opened hranks' =>
      rw [hranks] at hranks'
      cases hranks'
      exact .inl he
    | @met b _ x hstands hpeek hdyn hsplit =>
      obtain ⟨start, fs, ⟨gs, c', hranks', hstart⟩, htrip⟩ := stands_iff.1 hstands
      rw [hranks] at hranks'
      cases hranks'
      exact .inr ⟨start, hstart, fs, b, htrip, x, d, hpeek, hdyn, hsplit, he⟩
  · rintro (he | ⟨start, hstart, fs, b, htrip, x, d, hpeek, hdyn, hsplit, he⟩)
    · exact ⟨c, .opened hranks, he⟩
    · exact ⟨d, .met (stands_iff.2 ⟨start, fs, ⟨es, c, hranks, hstart⟩, htrip⟩) hpeek hdyn hsplit, he⟩

theorem mapError_apply_eq_error : (p.loopOrder.apply c).mapError Prod.fst = .error e ↔
    p.loopOrder.apply c = .error (e, c) := by
  cases happly : p.loopOrder.apply c with
  | ok d => simp [Except.mapError]
  | error r =>
    obtain ⟨e', d⟩ := r
    obtain ⟨-, rfl⟩ := LoopOrder.apply_eq_error happly
    simp [Except.mapError]

theorem mapError_apply_eq_ok : (p.loopOrder.apply c).mapError Prod.fst = .ok d ↔ p.loopOrder.apply c = .ok d := by
  cases p.loopOrder.apply c <;> simp [Except.mapError]

/-- The loop order fails where it gives the cursor back. -/
theorem failsFor_apply (c : Cursor) : FailsFor (fun e => p.loopOrder.apply c = .error (e, c))
    ((p.loopOrder.apply c).mapError Prod.fst) :=
  (FailsFor.itself _).congr fun _ => mapError_apply_eq_error

theorem failsFor_tensorEdges (hp : p.rules.Coherent) (t : Tensor) : FailsFor (TensorFault p t) (tensorEdges p t) := by
  refine (failsFor_rankPart_declared hp t).andThen (fun e he => by rw [tensorEdges, he]) ?_
  rintro ⟨ranks, c⟩ hranks
  have hsorted : FailsFor (fun e => p.loopOrder.apply c = .error (e, c) ∨
      ∃ start, p.loopOrder.apply c = .ok start ∧ ∃ fs d, Trip p start fs d ∧ Stuck p d e) (tensorEdges p t) := by
    rw [tensorEdges, hranks]
    dsimp only
    refine (failsFor_apply c).andThen (fun e he => ?_) fun start hstart => ?_
    · rw [mapError_apply_eq_error.1 he]
    rw [mapError_apply_eq_ok] at hstart
    have hwalk : FailsFor (fun e => ∃ fs d, Trip p start fs d ∧ Stuck p d e) (walkAll p start) := by
      rw [walkAll, ← List.sum_eq_foldr]
      exact failsFor_walk hp (Nat.le_refl _)
    rw [hstart]
    refine (hwalk.map _).congr fun e => ⟨fun h => ⟨start, rfl, h⟩, ?_⟩
    rintro ⟨start', hstart', h⟩
    cases hstart'
    exact h
  exact hsorted.congr fun e => (exists_sorts_iff hranks).symm

theorem failsFor_tensorsEdges (hp : p.rules.Coherent) : ∀ ts : List Tensor,
    FailsFor (fun e => ∃ t ∈ ts, TensorFault p t e) (tensorsEdges p ts)
  | [] => .unfailing rfl (by simp)
  | t :: ts => by
    have hboth : FailsFor (fun e => TensorFault p t e ∨ ∃ u ∈ ts, TensorFault p u e) (tensorsEdges p (t :: ts)) := by
      refine (failsFor_tensorEdges hp t).andThen (fun e he => by rw [tensorsEdges, he]) fun es hes => ?_
      rw [tensorsEdges, hes]
      exact (failsFor_tensorsEdges hp ts).map _
    exact hboth.congr fun e => by simp only [List.mem_cons, exists_eq_or_imp]

/-- What the loop order has to sort for a program: the output tensor with all splits made, and what there is for each
tensor. -/
def Sorted (p : Program) (c : Cursor) : Prop :=
  (p.cursor p.outputTensor).splitAll p.rules = .ok c ∨ ∃ t ∈ p.tensors, Sorts p t c

/-- **The graph fails where a leader is missing or something cannot be sorted**, and nowhere else. -/
theorem failsFor_graph (hp : p.rules.Coherent) :
    FailsFor (fun e => (∃ c, Sorted p c ∧ p.loopOrder.apply c = .error (e, c)) ∨
      ∃ t ∈ p.tensors, ∃ x ∈ dynamicSources p t, Leaderless p t.root x e) p.graph := by
  have hall := Program.splitAll_eq hp (p.cursor p.outputTensor)
  have hedges : FailsFor (fun e => settledOutput p = .error e ∨ ∃ t ∈ p.tensors, TensorFault p t e) (edges p) := by
    refine (FailsFor.itself _).andThen (fun e he => by rw [edges, he]) fun out hout => ?_
    rw [edges, hout]
    exact (failsFor_tensorsEdges hp p.tensors).map _
  refine (hedges.map Graph.empty.addEdges).congr fun e => ?_
  constructor
  · rintro (he | ⟨t, ht, hleader | ⟨c, hc, he⟩⟩)
    · rw [settledOutput, hall] at he
      exact .inl ⟨_, .inl hall, mapError_apply_eq_error.1 he⟩
    · exact .inr ⟨t, ht, hleader⟩
    · exact .inl ⟨c, .inr ⟨t, ht, hc⟩, he⟩
  · rintro (⟨c, hc | ⟨t, ht, hc⟩, he⟩ | ⟨t, ht, hleader⟩)
    · rw [settledOutput, hc]
      exact .inl (mapError_apply_eq_error.2 he)
    · exact .inr ⟨t, ht, .inr ⟨c, hc, he⟩⟩
    · exact .inr ⟨t, ht, .inl hleader⟩

/-- **Late rules let a validated program fail in two ways only.**  Rules are added to it, each accepted by those before,
and none checked against its tensors and loops.  Then building it gives a graph, or fails with one of two problems: the
loop order has no place for a rank of something that is to be sorted, or the leader of a step is neither declared nor
the tensor that is split.  If there is a graph, all that is to be sorted has been, and no leader is missing.  The output
tensor is split all the way, and every walk comes to its outcome, with any number of steps that is enough. -/
theorem extended_fails_cleanly {q : Program} (hp : p.Validated) (hq : p.Extended q) :
    (∀ e, q.graph = .error e →
      (e.code = .rankNotFound ∧ ∃ c, Sorted q c ∧ q.loopOrder.apply c = .error (e, c)) ∨
      (e.code = .tensorNotFound ∧ ∃ t ∈ q.tensors, ∃ x ∈ dynamicSources q t, Leaderless q t.root x e)) ∧
    (∀ g, q.graph = .ok g → (∀ c, Sorted q c → ∃ d, q.loopOrder.apply c = .ok d) ∧
      ∀ t ∈ q.tensors, ∀ x ∈ dynamicSources q t,
        q.rules.leader x = t.root ∨ ∃ l, q.tensor? (q.rules.leader x) = some l) ∧
    (∃ all, (∀ x ∈ all.pending, q.rules.isPartitioned x = false) ∧
      ∀ rounds, (q.outputTensor.ranks.map (Cursor.pendingSplits q.rules)).sum ≤ rounds →
        Cursor.splitTimes q.rules rounds (q.cursor q.outputTensor) = .ok all) ∧
    ∀ t ∈ q.tensors, ∀ start, Opens q t start → ∃ outcome, (∀ es d, outcome = .ok (es, d) → d.pending = []) ∧
      ∀ fuel, stepsLeft q start ≤ fuel → walk q fuel start = outcome := by
  have hc : q.rules.Coherent := hq.coherent hp.consistent.coherent
  have hgraph := failsFor_graph hc
  refine ⟨fun e he => ?_, fun g hg => ⟨fun c hsorted => ?_, fun t ht x hx => ?_⟩, ?_,
    fun t _ start _ => exists_outcome hc start⟩
  · rcases hgraph.blame e he with ⟨c, hsorted, happly⟩ | ⟨t, ht, x, hx, hleader⟩
    · exact .inl ⟨(LoopOrder.apply_eq_error happly).1, c, hsorted, happly⟩
    · refine .inr ⟨?_, t, ht, x, hx, hleader⟩
      obtain ⟨s, -, -, -, rfl⟩ := hleader
      rfl
  · cases happly : q.loopOrder.apply c with
    | ok d => exact ⟨d, rfl⟩
    | error e =>
      obtain ⟨e, d⟩ := e
      obtain ⟨-, rfl⟩ := LoopOrder.apply_eq_error happly
      exact absurd (.inl ⟨_, hsorted, happly⟩) (hgraph.clear g hg e)
  · obtain ⟨s, hs⟩ := exists_split_of_mem_dynamicSources hc hx
    have hleader : q.rules.leader x = s.step.leader := by rw [RuleSet.leader, hs]; rfl
    rw [hleader]
    by_cases hself : s.step.leader = t.root
    · exact .inl hself
    cases hl : q.tensor? s.step.leader with
    | some l => exact .inr ⟨l, rfl⟩
    | none => exact absurd (.inr ⟨t, ht, x, hx, s, hs, hself, hl, rfl⟩) (hgraph.clear g hg _)
  · refine ⟨_, fun x hx => ?_, fun rounds hrounds => Program.splitTimes_eq hc rounds hrounds⟩
    obtain ⟨y, -, hx⟩ := List.mem_flatMap.1 hx
    rw [RuleSet.isPartitioned, Program.split?_of_mem_loopsFor hc hx]
    rfl

/-- A validated program with a late step that a tensor which there is not leads. -/
def ledFromNowhere : Program :=
  { twoSteps with rules := ⟨twoSteps.rules.rules ++ [⟨"M", [⟨.uniformOccupancy, 2, "Z"⟩]⟩]⟩ }

/-- A validated program with a late step that splits a rank whose loop stays as it was. -/
def splitAside : Program :=
  { twoSteps with rules := ⟨twoSteps.rules.rules ++ [⟨"M", [⟨.uniformShape, 2, ""⟩]⟩]⟩ }

theorem evaluated_late :
    twoSteps.extend ⟨"M", [⟨.uniformOccupancy, 2, "Z"⟩]⟩ = .ok ledFromNowhere ∧
    twoSteps.extend ⟨"M", [⟨.uniformShape, 2, ""⟩]⟩ = .ok splitAside ∧
    tensorEdges ledFromNowhere ⟨"A", some ["K", "M"]⟩ = .error (.wiringLeaderUndeclared "A" "M" "Z") ∧
    tensorEdges splitAside ⟨"A", some ["K", "M"]⟩ =
      .error (.tensorNotInLoopOrder "A_KM1M0" "M1" ["K2", "M", "K1", "K0"]) := by
  decide +kernel

theorem graph_of_first_tensor {ts : List Tensor} (htensors : p.tensors = t :: ts) (hout : settledOutput p = .ok c)
    (he : tensorEdges p t = .error e) : p.graph = .error e := by
  rw [Program.graph, edges, hout, htensors]
  dsimp only
  rw [tensorsEdges, he]
  rfl

/-- One late rule names a leader that there is not, another splits a rank and leaves its parts without loops: each
program fails in its own way. -/
theorem extended_fails_cleanly_twoSteps : twoSteps.Validated ∧
    (twoSteps.Extended ledFromNowhere ∧ ∃ e, ledFromNowhere.graph = .error e ∧ e.code = .tensorNotFound ∧
      ∃ t ∈ ledFromNowhere.tensors, ∃ x ∈ dynamicSources ledFromNowhere t, Leaderless ledFromNowhere t.root x e) ∧
    twoSteps.Extended splitAside ∧ ∃ e, splitAside.graph = .error e ∧ e.code = .rankNotFound ∧
      ∃ c, Sorted splitAside c ∧ splitAside.loopOrder.apply c = .error (e, c) := by
  obtain ⟨hled, haside, hleader, hplace⟩ := evaluated_late
  have hled : twoSteps.Extended ledFromNowhere := .more .none hled
  have haside : twoSteps.Extended splitAside := .more .none haside
  have hfirst : ledFromNowhere.graph = .error (.wiringLeaderUndeclared "A" "M" "Z") := by
    have hout : settledOutput ledFromNowhere = .ok ⟨"B", ["K"], [], ["K2", "K1", "K0"], true, false⟩ := by cbv
    exact graph_of_first_tensor rfl hout hleader
  have hsecond : splitAside.graph = .error (.tensorNotInLoopOrder "A_KM1M0" "M1" ["K2", "M", "K1", "K0"]) := by
    have hout : settledOutput splitAside = .ok ⟨"B", ["K"], [], ["K2", "K1", "K0"], true, false⟩ := by cbv
    exact graph_of_first_tensor rfl hout hplace
  have hone := (extended_fails_cleanly validated_twoSteps hled).1 _ hfirst
  have htwo := (extended_fails_cleanly validated_twoSteps haside).1 _ hsecond
  refine ⟨validated_twoSteps, ⟨hled, _, hfirst, hone.resolve_left ?_⟩, haside, _, hsecond, htwo.resolve_right ?_⟩
  · rintro ⟨hcode, -⟩
    exact absurd hcode (by decide)
  · rintro ⟨hcode, -⟩
    exact absurd hcode (by decide)

end Wiring
end LoopNest
