import Mathlib
import LoopNest.Proofs.Flow.Building
/-!
# Proofs.Flow.Walking — the walk of a tensor through the loops

A walk is a run of moves (`Move`): it enters the loop of the first pending rank, or splits that rank and sorts again.
`OnTrack` is what every move keeps.  The pending ranks are sorted by their places; with each of them replaced by the
ranks that it becomes in the end, the consumed and the pending ranks are those that the tensor has in the end; and what
was consumed lies in the loop order before all that is still to come.  A move takes something off the count of steps, so
a walk ends with nothing pending, and what it has consumed is the list that splitting first and sorting once gives
(`walk_agrees_with_splitAll`).
-/
namespace LoopNest

theorem Cursor.pop?_eq_some {c d : Cursor} {x : String} : c.pop? = some (x, d) ↔
    ∃ rest, c.pending = x :: rest ∧ d = { c with consumed := c.consumed ++ [x], pending := rest } := by
  unfold Cursor.pop?
  cases hp : c.pending with
  | nil => simp
  | cons y rest =>
    simp only [Option.some.injEq, Prod.mk.injEq, List.cons.injEq]
    constructor
    · rintro ⟨rfl, rfl⟩; exact ⟨rest, ⟨rfl, rfl⟩, rfl⟩
    · rintro ⟨_, ⟨rfl, rfl⟩, rfl⟩; exact ⟨rfl, rfl⟩

theorem Cursor.pop?_eq_none {c : Cursor} : c.pop? = none ↔ c.pending = [] := by
  unfold Cursor.pop?
  cases hp : c.pending <;> simp

namespace Program

variable {p : Program} {t : Tensor} {x f : String}

/-- What an obtainable rank becomes in the end is obtainable. -/
theorem Obtainable.of_mem_loopsFor (hp : p.rules.Coherent) (hx : Obtainable p t x) (hf : f ∈ p.loopsFor x) :
    Obtainable p t f := by
  induction hn : Cursor.pendingSplits p.rules x using Nat.strongRecOn generalizing x with
  | ind n ih =>
    subst hn
    cases hs : p.rules.split? x with
    | none =>
      rw [loopsFor_of_unsplit hs, List.mem_singleton] at hf
      rwa [hf]
    | some s =>
      have hone := pendingSplits_split hp hs
      rw [loopsFor_split hp hs] at hf
      obtain ⟨y, hy, hf⟩ := List.mem_flatMap.1 hf
      have hlt : Cursor.pendingSplits p.rules y < Cursor.pendingSplits p.rules x := by
        rcases Split.mem_pair.1 hy with rfl | rfl <;> omega
      exact ih _ hlt (hx.made hs hy) hf rfl

end Program

namespace Wiring

open Program (Obtainable)

variable {p : Program} {t : Tensor} {x : String} {s : Split} {c d f : Cursor} {es fs : List Dependency}

/-! ## Moves -/

/-- **One move of a walk**, with the dependencies that it lists. -/
inductive Move (p : Program) (c : Cursor) : List Dependency → Cursor → Prop where
  | loop {x : String} {d : Cursor} : c.pop? = some (x, d) → p.rules.isDynamic x = false → Move p c (meetLoop c d x) d
  | split {x : String} {rest : List String} {es : List Dependency} {d : Cursor} : c.pending = x :: rest →
      p.rules.isDynamic x = true → meetSplit p c x = .ok (es, d) → Move p c es d

theorem Move.pending_ne_nil (h : Move p c es d) : c.pending ≠ [] := by
  cases h with
  | loop hpop _ =>
    obtain ⟨rest, hpend, -⟩ := Cursor.pop?_eq_some.1 hpop
    rw [hpend]; exact List.cons_ne_nil _ _
  | split hpend _ _ => rw [hpend]; exact List.cons_ne_nil _ _

theorem Move.walk_succ (h : Move p c es d) (fuel : Nat) :
    walk p (fuel + 1) c = (walk p fuel d).map (fun f => (es ++ f.1, f.2)) := by
  cases h with
  | loop hpop hdyn =>
    rw [walk, hpop]
    simp only [hdyn, Bool.false_eq_true, if_false]
  | @split x rest _ _ hpend hdyn hmeet =>
    have hpop : c.pop? = some (x, { c with consumed := c.consumed ++ [x], pending := rest }) :=
      Cursor.pop?_eq_some.2 ⟨rest, hpend, rfl⟩
    rw [walk, hpop]
    simp only [hdyn, if_true, hmeet]

theorem walk_of_pending_eq_nil (h : c.pending = []) : ∀ fuel, walk p fuel c = .ok ([], c)
  | 0 => rfl
  | fuel + 1 => by rw [walk, Cursor.pop?_eq_none.2 h]

/-- **A walk starts with a move, or has nothing to do.** -/
theorem exists_move_of_walk {fuel : Nat} (h : walk p (fuel + 1) c = .ok (es, d)) :
    (c.pending = [] ∧ es = [] ∧ d = c) ∨
    ∃ gs e hs, Move p c gs e ∧ walk p fuel e = .ok (hs, d) ∧ es = gs ++ hs := by
  cases hpop : c.pop? with
  | none =>
    have hnil := Cursor.pop?_eq_none.1 hpop
    rw [walk_of_pending_eq_nil hnil] at h
    cases h
    exact .inl ⟨hnil, rfl, rfl⟩
  | some q =>
    obtain ⟨x, next⟩ := q
    obtain ⟨rest, hpend, -⟩ := Cursor.pop?_eq_some.1 hpop
    have hmove : ∃ gs e, Move p c gs e := by
      cases hdyn : p.rules.isDynamic x with
      | false => exact ⟨_, _, .loop hpop hdyn⟩
      | true =>
        cases hmeet : meetSplit p c x with
        | ok r => exact ⟨_, _, .split hpend hdyn hmeet⟩
        | error e =>
          rw [walk, hpop] at h
          simp only [hdyn, if_true, hmeet] at h
          cases h
    obtain ⟨gs, e, hmove⟩ := hmove
    rw [hmove.walk_succ] at h
    cases hw : walk p fuel e with
    | error e' => rw [hw] at h; cases h
    | ok r =>
      rw [hw] at h
      cases h
      exact .inr ⟨gs, e, r.1, hmove, hw, rfl⟩

theorem Move.deterministic (h : Move p c es d) (h' : Move p c fs f) : es = fs ∧ d = f := by
  have hw := h.walk_succ 0
  rw [h'.walk_succ 0] at hw
  simp only [walk, Except.map, List.append_nil, Except.ok.injEq, Prod.mk.injEq] at hw
  exact ⟨hw.1.symm, hw.2.symm⟩

/-- **A run of moves.** -/
inductive Trip (p : Program) : Cursor → List Dependency → Cursor → Prop where
  | stay (c : Cursor) : Trip p c [] c
  | go {c d f : Cursor} {es fs : List Dependency} : Move p c es d → Trip p d fs f → Trip p c (es ++ fs) f

theorem Trip.single (h : Move p c es d) : Trip p c es d := by
  have := Trip.go h (.stay d)
  rwa [List.append_nil] at this

theorem Trip.trans (h : Trip p c es d) (h' : Trip p d fs f) : Trip p c (es ++ fs) f := by
  induction h with
  | stay => exact h'
  | go hm _ ih => rw [List.append_assoc]; exact .go hm (ih h')

theorem trip_of_walk : ∀ {fuel : Nat} {c : Cursor} {es : List Dependency}, walk p fuel c = .ok (es, d) → Trip p c es d
  | 0, _, _, h => by cases h; exact .stay _
  | fuel + 1, c, es, h => by
    rcases exists_move_of_walk h with ⟨-, rfl, rfl⟩ | ⟨gs, e, hs, hm, hw, rfl⟩
    · exact .stay _
    · exact .go hm (trip_of_walk hw)

theorem Trip.exists_walk (h : Trip p c es d) : ∃ fuel, walk p fuel c = .ok (es, d) := by
  induction h with
  | stay => exact ⟨0, rfl⟩
  | go hm _ ih =>
    obtain ⟨fuel, hw⟩ := ih
    exact ⟨fuel + 1, by rw [hm.walk_succ, hw]; rfl⟩

/-- **A trip to the end goes on from wherever another trip leads.** -/
theorem Trip.rest (h : Trip p c es d) (hend : Trip p c fs f) (hnil : f.pending = []) :
    ∃ gs, Trip p d gs f ∧ fs = es ++ gs := by
  induction h generalizing fs with
  | stay => exact ⟨fs, hend, rfl⟩
  | go hm _ ih =>
    cases hend with
    | stay => exact absurd hnil hm.pending_ne_nil
    | go hm' hend =>
      obtain ⟨rfl, rfl⟩ := hm.deterministic hm'
      obtain ⟨gs, hgs, rfl⟩ := ih hend
      exact ⟨gs, hgs, (List.append_assoc _ _ _).symm⟩

/-- The loops that dependencies lead to, in order. -/
def entered (es : List Dependency) : List String :=
  es.filterMap fun e => match e.2 with
    | .loop x => some x
    | _ => none

theorem entered_append (es fs : List Dependency) : entered (es ++ fs) = entered es ++ entered fs :=
  List.filterMap_append

theorem entered_rootFiber (c : Cursor) : entered (rootFiber c) = [] := by
  rw [entered, List.filterMap_eq_nil_iff]
  intro e he
  simp only [rootFiber, List.mem_cons, List.mem_map] at he
  rcases he with rfl | rfl | ⟨r, -, rfl⟩ <;> rfl

/-! ## What a move does -/

theorem split_head {rest : List String} (hpend : c.pending = x :: rest) (hs : p.rules.split? x = some s) :
    c.split p.rules x = .ok (c.withPending (s.pair ++ rest)) := by
  rw [Cursor.split, if_pos (by rw [hpend]; exact List.mem_cons_self), hs, hpend]
  simp

theorem perm_of_apply (h : p.loopOrder.apply c = .ok d) : d.pending.Perm c.pending := by
  unfold LoopOrder.apply at h
  split at h
  · cases h
  · cases h
    exact List.mergeSort_perm _ _

/-- **A split met on a walk**: the two new ranks are sorted in among the other pending ones. -/
theorem meetSplit_eq (hp : p.Consistent) {rest : List String} (hcov : ∀ y ∈ c.pending, p.Covered y)
    (hpend : c.pending = x :: rest) (hs : p.rules.split? x = some s) : ∃ ranks, ranks.Perm (s.pair ++ rest) ∧
      ranks.Pairwise (fun a b => p.place a ≤ p.place b) ∧
      meetSplit p c x = .ok ((Node.fiber c.fiber, Node.fromFiber c.root x) ::
        (Node.fromFiber c.root x, Node.ofPart c.root [x]) :: rootFiber (c.withPending ranks).reroot,
        (c.withPending ranks).reroot) := by
  have hsplit := split_head hpend hs
  have hcov' : ∀ y ∈ s.pair ++ rest, p.Covered y := by
    intro y hy
    rcases List.mem_append.1 hy with hy | hy
    · exact (hcov x (by rw [hpend]; exact List.mem_cons_self)).pair hp.coherent hs y hy
    · exact hcov y (by rw [hpend]; exact List.mem_cons_of_mem _ hy)
  obtain ⟨ranks, hperm, hsorted, happly⟩ := Program.apply_sorted hp (c := c.withPending (s.pair ++ rest)) hcov'
  refine ⟨ranks, hperm, hsorted, ?_⟩
  rw [meetSplit, hsplit]
  dsimp only
  rw [happly]
  rfl

/-- **What a move is about a cursor with covered ranks**: it consumes the first rank, or splits it. -/
theorem Move.cases_of_covered (hp : p.Consistent) (hcov : ∀ y ∈ c.pending, p.Covered y) (h : Move p c es d) :
    (∃ x rest, c.pending = x :: rest ∧ p.rules.isDynamic x = false ∧ es = meetLoop c d x ∧
      d = { c with consumed := c.consumed ++ [x], pending := rest }) ∨
    ∃ x rest s ranks, c.pending = x :: rest ∧ p.rules.split? x = some s ∧ s.step.isDynamic = true ∧
      ranks.Perm (s.pair ++ rest) ∧ ranks.Pairwise (fun a b => p.place a ≤ p.place b) ∧
      d = (c.withPending ranks).reroot ∧
      es = (Node.fiber c.fiber, Node.fromFiber c.root x) :: (Node.fromFiber c.root x, Node.ofPart c.root [x]) ::
        rootFiber d := by
  cases h with
  | @loop x _ hpop hdyn =>
    obtain ⟨rest, hpend, hd⟩ := Cursor.pop?_eq_some.1 hpop
    exact .inl ⟨x, rest, hpend, hdyn, rfl, hd⟩
  | @split x rest _ _ hpend hdyn hmeet =>
    obtain ⟨s, hs, hsd⟩ := exists_split_of_isDynamic hdyn
    obtain ⟨ranks, hperm, hsorted, heq⟩ := meetSplit_eq hp hcov hpend hs
    rw [hmeet] at heq
    cases heq
    exact .inr ⟨x, rest, s, ranks, hpend, hs, hsd, hperm, hsorted, rfl, rfl⟩

/-! ## What every move keeps -/

/-- **The state of a walk.** -/
structure OnTrack (p : Program) (t : Tensor) (c : Cursor) : Prop where
  root : c.root = t.root
  output : c.output = decide (t.root = p.output)
  obtained : ∀ x ∈ c.pending, Obtainable p t x
  unstatic : ∀ x ∈ c.pending, p.rules.isStatic x = false
  sorted : c.pending.Pairwise (fun a b => p.place a ≤ p.place b)
  perm : (c.consumed ++ c.pending.flatMap p.loopsFor).Perm (t.ranks.flatMap p.loopsFor)
  behind : ∀ a ∈ c.consumed, ∀ f ∈ c.pending.flatMap p.loopsFor, p.loops.idxOf a < p.loops.idxOf f
  increasing : c.consumed.Pairwise (fun a b => p.loops.idxOf a < p.loops.idxOf b)

theorem OnTrack.covered (hp : p.Consistent) (ht : t ∈ p.tensors) (hc : OnTrack p t c) :
    ∀ x ∈ c.pending, p.Covered x :=
  fun x hx => (hc.obtained x hx).covered hp ht

theorem OnTrack.walkable (hp : p.Consistent) (ht : t ∈ p.tensors) (hc : OnTrack p t c) :
    ∀ x ∈ c.pending, Walkable p x :=
  fun x hx => ⟨hc.covered hp ht x hx, hc.unstatic x hx⟩

theorem OnTrack.nodup (hp : p.Named) (ht : t ∈ p.tensors) (hc : OnTrack p t c) :
    (c.consumed ++ c.pending.flatMap p.loopsFor).Nodup :=
  hc.perm.nodup_iff.2 (hp.nodup_loopsFor ht)

/-- **The first pending rank comes before all that the others become.** -/
theorem OnTrack.place_lt (hp : p.Named) (ht : t ∈ p.tensors) (hc : OnTrack p t c) {rest : List String}
    (hpend : c.pending = x :: rest) {f : String} (hf : f ∈ rest.flatMap p.loopsFor) :
    p.place x < p.loops.idxOf f := by
  have hp' := hp.toConsistent
  have hx : x ∈ c.pending := by rw [hpend]; exact List.mem_cons_self
  obtain ⟨y, hy, hfy⟩ := List.mem_flatMap.1 hf
  have hyc : p.Covered y := hc.covered hp' ht y (by rw [hpend]; exact List.mem_cons_of_mem _ hy)
  have hle : p.place x ≤ p.loops.idxOf f := by
    have hsorted := hc.sorted
    rw [hpend] at hsorted
    exact Nat.le_trans ((List.pairwise_cons.1 hsorted).1 y hy) (Program.place_le hp' hyc hfy)
  obtain ⟨g, hg, hplace⟩ := Program.exists_place hp' (hc.covered hp' ht x hx)
  -- The position is that of a rank which the first one becomes, and no other rank becomes the same.
  have hne : g ≠ f := by
    rintro rfl
    have hnd := (List.nodup_append.1 (hc.nodup hp ht)).2.1
    rw [hpend, List.flatMap_cons] at hnd
    exact (List.nodup_append.1 hnd).2.2 g hg g hf rfl
  have hgl : g ∈ p.loops := hc.covered hp' ht x hx g hg
  have hidx : p.loops.idxOf g ≠ p.loops.idxOf f := fun h => hne ((List.idxOf_inj hgl).1 h)
  omega

theorem OnTrack.behind_place (hp : p.Consistent) (ht : t ∈ p.tensors) (hc : OnTrack p t c) {a : String}
    (ha : a ∈ c.consumed) (hx : x ∈ c.pending) : p.loops.idxOf a < p.place x := by
  obtain ⟨f, hf, hplace⟩ := Program.exists_place hp (hc.covered hp ht x hx)
  rw [hplace]
  exact hc.behind a ha f (List.mem_flatMap.2 ⟨x, hx, hf⟩)

theorem OnTrack.loop (hp : p.Named) (ht : t ∈ p.tensors) (hc : OnTrack p t c) {rest : List String}
    (hpend : c.pending = x :: rest) (hdyn : p.rules.isDynamic x = false) :
    OnTrack p t { c with consumed := c.consumed ++ [x], pending := rest } := by
  have hmem : ∀ y ∈ rest, y ∈ c.pending := fun y hy => by rw [hpend]; exact List.mem_cons_of_mem _ hy
  have hx : x ∈ c.pending := by rw [hpend]; exact List.mem_cons_self
  have hloop := (hc.walkable hp.toConsistent ht x hx).mem_loops hdyn
  have hfor : p.loopsFor x = [x] := Program.loopsFor_of_unsplit (hp.loops_unsplit x hloop)
  have hall : c.pending.flatMap p.loopsFor = x :: rest.flatMap p.loopsFor := by
    rw [hpend, List.flatMap_cons, hfor]
    rfl
  have hsorted := hc.sorted
  rw [hpend] at hsorted
  refine ⟨hc.root, hc.output, fun y hy => hc.obtained y (hmem y hy), fun y hy => hc.unstatic y (hmem y hy),
    (List.pairwise_cons.1 hsorted).2, ?_, fun a ha f hf => ?_, ?_⟩
  · have hperm := hc.perm
    rw [hall] at hperm
    change ((c.consumed ++ [x]) ++ rest.flatMap p.loopsFor).Perm _
    rwa [List.append_assoc, List.singleton_append]
  · rcases List.mem_append.1 ha with ha | ha
    · exact hc.behind a ha f (by rw [hall]; exact List.mem_cons_of_mem _ hf)
    · rw [List.mem_singleton.1 ha, ← Program.place_of_mem hp.toConsistent hloop]
      exact hc.place_lt hp ht hpend hf
  · refine List.pairwise_append.2 ⟨hc.increasing, List.pairwise_singleton _ x, fun a ha b hb => ?_⟩
    rw [List.mem_singleton.1 hb]
    exact hc.behind a ha x (by rw [hall]; exact List.mem_cons_self)

theorem OnTrack.split (hp : p.Consistent) (hc : OnTrack p t c) {rest ranks : List String}
    (hpend : c.pending = x :: rest) (hs : p.rules.split? x = some s) (hdyn : s.step.isDynamic = true)
    (hperm : ranks.Perm (s.pair ++ rest)) (hsorted : ranks.Pairwise (fun a b => p.place a ≤ p.place b)) :
    OnTrack p t (c.withPending ranks).reroot := by
  have hx : x ∈ c.pending := by rw [hpend]; exact List.mem_cons_self
  have hmem : ∀ y ∈ rest, y ∈ c.pending := fun y hy => by rw [hpend]; exact List.mem_cons_of_mem _ hy
  have hall : (ranks.flatMap p.loopsFor).Perm (c.pending.flatMap p.loopsFor) := by
    refine (hperm.flatMap_right p.loopsFor).trans ?_
    rw [List.flatMap_append, ← Program.loopsFor_split hp.coherent hs, hpend, List.flatMap_cons]
  have hcases : ∀ y ∈ ranks, y ∈ s.pair ∨ y ∈ rest := fun y hy => List.mem_append.1 (hperm.mem_iff.1 hy)
  refine ⟨hc.root, hc.output, fun y hy => ?_, fun y hy => ?_, hsorted, ?_, fun a ha f hf => ?_, hc.increasing⟩
  · exact (hcases y hy).elim (fun hy => (hc.obtained x hx).made hs hy) (fun hy => hc.obtained y (hmem y hy))
  · rcases hcases y hy with hy | hy
    · cases hs' : p.rules.split? y with
      | none => rw [RuleSet.isStatic, hs']; rfl
      | some s' =>
        have heq := hp.coherent.isDynamic_eq hs hs' (hp.coherent.rule_of_pair hs hy hs')
        rw [RuleSet.isStatic, hs', Option.any_some, heq, hdyn]
        rfl
    · exact hc.unstatic y (hmem y hy)
  · exact (List.Perm.append_left c.consumed hall).trans hc.perm
  · exact hc.behind a ha f (hall.mem_iff.1 hf)

/-- **A move keeps a walk on track.** -/
theorem OnTrack.move (hp : p.Named) (ht : t ∈ p.tensors) (hc : OnTrack p t c) (h : Move p c es d) :
    OnTrack p t d := by
  have hp' := hp.toConsistent
  rcases h.cases_of_covered hp' (hc.covered hp' ht) with
    ⟨x, rest, hpend, hdyn, -, rfl⟩ | ⟨x, rest, s, ranks, hpend, hs, hdyn, hperm, hsorted, rfl, -⟩
  · exact hc.loop hp ht hpend hdyn
  · exact hc.split hp' hpend hs hdyn hperm hsorted

theorem OnTrack.trip (hp : p.Named) (ht : t ∈ p.tensors) (hc : OnTrack p t c) (h : Trip p c es d) :
    OnTrack p t d := by
  induction h with
  | stay => exact hc
  | go hm _ ih => exact ih (hc.move hp ht hm)

/-! ## The end of a walk -/

theorem OnTrack.exists_move (hp : p.Consistent) (ht : t ∈ p.tensors) (hc : OnTrack p t c) (hne : c.pending ≠ []) :
    ∃ es d, Move p c es d := by
  obtain ⟨x, rest, hpend⟩ := List.exists_cons_of_ne_nil hne
  cases hdyn : p.rules.isDynamic x with
  | false => exact ⟨_, _, .loop (Cursor.pop?_eq_some.2 ⟨rest, hpend, rfl⟩) hdyn⟩
  | true =>
    obtain ⟨s, hs, -⟩ := exists_split_of_isDynamic hdyn
    obtain ⟨ranks, -, -, hmeet⟩ := meetSplit_eq hp (hc.covered hp ht) hpend hs
    exact ⟨_, _, .split hpend hdyn hmeet⟩

/-- **A split met on a walk leaves the two new ranks among the others.** -/
theorem perm_of_meetSplit {rest : List String} (hpend : c.pending = x :: rest) (hs : p.rules.split? x = some s)
    (h : meetSplit p c x = .ok (es, d)) : d.pending.Perm (s.pair ++ rest) := by
  rw [meetSplit, split_head hpend hs] at h
  dsimp only at h
  split at h
  · cases h
  · rename_i f happly
    cases h
    exact perm_of_apply happly

/-- How many steps a walk has left at most. -/
def stepsLeft (p : Program) (c : Cursor) : Nat := (c.pending.map (walkSteps p)).sum

theorem stepsLeft_pos (h : c.pending ≠ []) : 0 < stepsLeft p c := by
  obtain ⟨x, rest, hpend⟩ := List.exists_cons_of_ne_nil h
  rw [stepsLeft, hpend, List.map_cons, List.sum_cons, walkSteps]
  omega

/-- **Every move takes something off the count of the steps that are left.** -/
theorem Move.stepsLeft_lt (hp : p.rules.Coherent) (h : Move p c es d) : stepsLeft p d < stepsLeft p c := by
  cases h with
  | loop hpop _ =>
    obtain ⟨rest, hpend, rfl⟩ := Cursor.pop?_eq_some.1 hpop
    rw [stepsLeft, stepsLeft, hpend, List.map_cons, List.sum_cons, walkSteps]
    change (rest.map (walkSteps p)).sum < _
    omega
  | @split x rest _ _ hpend hdyn hmeet =>
    obtain ⟨s, hs, -⟩ := exists_split_of_isDynamic hdyn
    have hone := Program.pendingSplits_split hp hs
    have hsum : stepsLeft p d = ((s.pair ++ rest).map (walkSteps p)).sum :=
      ((perm_of_meetSplit hpend hs hmeet).map _).sum_nat
    rw [hsum, stepsLeft, hpend]
    simp only [Split.pair, List.cons_append, List.nil_append, List.map_cons, List.sum_cons, walkSteps]
    omega

theorem OnTrack.walk_ends (hp : p.Named) (ht : t ∈ p.tensors) : ∀ (fuel : Nat) {c : Cursor}, OnTrack p t c →
    stepsLeft p c ≤ fuel → ∃ es d, walk p fuel c = .ok (es, d) ∧ d.pending = []
  | 0, c, _, hfuel => by
    refine ⟨[], c, rfl, not_not.1 fun hne => ?_⟩
    have hpos := stepsLeft_pos (p := p) hne
    omega
  | fuel + 1, c, hc, hfuel => by
    by_cases hnil : c.pending = []
    · exact ⟨[], c, walk_of_pending_eq_nil hnil _, hnil⟩
    · obtain ⟨es, d, hm⟩ := hc.exists_move hp.toConsistent ht hnil
      have hlt := hm.stepsLeft_lt hp.coherent
      obtain ⟨fs, f, hf, hend⟩ := OnTrack.walk_ends hp ht fuel (hc.move hp ht hm) (by omega)
      exact ⟨_, f, by rw [hm.walk_succ, hf]; rfl, hend⟩

/-- **A walk through all loops ends with nothing pending.** -/
theorem OnTrack.walkAll_ends (hp : p.Named) (ht : t ∈ p.tensors) (hc : OnTrack p t c) :
    ∃ es d, walkAll p c = .ok (es, d) ∧ d.pending = [] := by
  rw [walkAll, ← List.sum_eq_foldr]
  exact hc.walk_ends hp ht _ (Nat.le_refl _)

theorem Move.consumed_eq (hp : p.Consistent) (hcov : ∀ y ∈ c.pending, p.Covered y) (h : Move p c es d) :
    d.consumed = c.consumed ++ entered es := by
  rcases h.cases_of_covered hp hcov with
    ⟨x, rest, -, -, rfl, rfl⟩ | ⟨x, rest, s, ranks, -, -, -, -, -, rfl, rfl⟩
  · rfl
  · have hnone : entered ((Node.fiber c.fiber, Node.fromFiber c.root x) ::
        (Node.fromFiber c.root x, Node.ofPart c.root [x]) :: rootFiber (c.withPending ranks).reroot) = [] :=
      entered_rootFiber _
    rw [hnone, List.append_nil]
    rfl

/-- **What a trip consumes are the loops that its dependencies enter.** -/
theorem Trip.consumed_eq (hp : p.Named) (ht : t ∈ p.tensors) (hc : OnTrack p t c) (h : Trip p c es d) :
    d.consumed = c.consumed ++ entered es := by
  have hp' := hp.toConsistent
  induction h with
  | stay => exact (List.append_nil _).symm
  | go hm _ ih =>
    rw [ih (hc.move hp ht hm), entered_append, ← List.append_assoc, hm.consumed_eq hp' (hc.covered hp' ht)]

/-! ## The start of a walk -/

theorem split_fields (h : c.split p.rules x = .ok d) : d = c.withPending d.pending := by
  unfold Cursor.split at h
  split at h
  · split at h <;> cases h
    rfl
  · cases h

theorem splitEach_fields : ∀ {srcs : List String} {c : Cursor}, splitEach p c srcs = .ok d → d = c.withPending d.pending
  | [], _, h => by cases h; rfl
  | x :: srcs, c, h => by
    rw [splitEach] at h
    cases hs : c.split p.rules x with
    | error e => rw [hs] at h; cases h
    | ok e =>
      rw [hs] at h
      rw [splitEach_fields h, split_fields hs]
      rfl

/-- **One rank of a tensor, seen from the result**: what is listed for it, and the cursor with which the others go
on. -/
theorem exists_of_rankPart_cons {root : String} {rs : List String} (h : rankPart p root c (x :: rs) = .ok (es, d)) :
    ∃ here e fs, rankPart p root e rs = .ok (fs, d) ∧ es = (Node.tensor root, Node.rank root x) :: here ++ fs ∧
      e = c.withPending e.pending ∧
      if p.rules.isStatic x then staticPart p root x = .ok here
      else if p.rules.isDynamic x then dynamicPart p root (sources p x) = .ok here
      else here = [] := by
  have hmap : ∀ {e : Cursor} {here : List Dependency},
      (rankPart p root e rs).map (fun f => ((Node.tensor root, Node.rank root x) :: here ++ f.1, f.2)) = .ok (es, d) →
      ∃ fs, rankPart p root e rs = .ok (fs, d) ∧ es = (Node.tensor root, Node.rank root x) :: here ++ fs := by
    intro e here h
    cases hr : rankPart p root e rs with
    | error e' => rw [hr] at h; cases h
    | ok r => rw [hr] at h; cases h; exact ⟨_, rfl, rfl⟩
  rw [rankPart] at h
  split at h
  · rename_i hst
    split at h
    · cases h
    rename_i here hhere
    split at h
    · cases h
    rename_i e he
    obtain ⟨fs, hfs, hes⟩ := hmap h
    exact ⟨here, e, fs, hfs, hes, splitEach_fields he, by rwa [if_pos hst]⟩
  rename_i hst
  split at h
  · rename_i hdyn
    split at h
    · cases h
    rename_i here hhere
    obtain ⟨fs, hfs, hes⟩ := hmap h
    exact ⟨here, c, fs, hfs, hes, rfl, by rwa [if_neg hst, if_pos hdyn]⟩
  · rename_i hdyn
    obtain ⟨fs, hfs, hes⟩ := @hmap c [] h
    exact ⟨[], c, fs, hfs, hes, rfl, by rw [if_neg hst, if_neg hdyn]⟩

theorem rankPart_fields {root : String} : ∀ {rs : List String} {c d : Cursor} {es : List Dependency},
    rankPart p root c rs = .ok (es, d) → d = c.withPending d.pending
  | [], _, _, _, h => by cases h; rfl
  | x :: rs, c, d, es, h => by
    obtain ⟨_, e, _, hfs, -, he, -⟩ := exists_of_rankPart_cons h
    rw [rankPart_fields hfs, he]
    rfl

/-- **The cursor at which the walk of a tensor starts**: static splits are made, and the ranks are sorted. -/
def Opens (p : Program) (t : Tensor) (start : Cursor) : Prop :=
  ∃ es c, rankPart p t.root (p.cursor t) t.ranks = .ok (es, c) ∧ p.loopOrder.apply c = .ok start

theorem flatMap_opened (hp : p.Consistent) (hx : p.Covered x) : (opened p x).flatMap p.loopsFor = p.loopsFor x := by
  unfold opened
  split
  · exact Program.flatMap_loopsFor_of_unsplit fun f hf => hp.loops_unsplit f (hx f hf)
  · rw [List.flatMap_singleton]

theorem exists_opens (hp : p.Consistent) (ht : t ∈ p.tensors) : ∃ start, Opens p t start := by
  obtain ⟨es, c, hc, -, -, hwalk⟩ := rankPart_declared hp ht
  obtain ⟨ranks, -, happly⟩ := apply_total hp (c := c) fun y hy => (hwalk y hy).1
  exact ⟨_, es, c, hc, happly⟩

/-- **A walk starts with the opened ranks**, sorted by their places. -/
theorem Opens.pending_perm (hp : p.Consistent) (ht : t ∈ p.tensors) (h : Opens p t c) :
    c.pending.Perm (t.ranks.flatMap (opened p)) ∧ c.pending.Pairwise (fun a b => p.place a ≤ p.place b) ∧
      c = (p.cursor t).withPending c.pending := by
  obtain ⟨es, b, hb, happly⟩ := h
  obtain ⟨es', b', hb', -, hperm, hwalk⟩ := rankPart_declared hp ht
  rw [hb] at hb'
  cases hb'
  obtain ⟨ranks, hranks, hsorted, happly'⟩ := Program.apply_sorted hp fun y hy => (hwalk y hy).1
  rw [happly] at happly'
  cases happly'
  refine ⟨hranks.trans hperm, hsorted, ?_⟩
  rw [rankPart_fields hb]
  rfl

/-- **A walk starts on track**, with nothing consumed. -/
theorem Opens.onTrack (hp : p.Consistent) (ht : t ∈ p.tensors) (h : Opens p t c) :
    OnTrack p t c ∧ c.consumed = [] := by
  obtain ⟨hperm, hsorted, hfields⟩ := h.pending_perm hp ht
  have hmem : ∀ y ∈ c.pending, ∃ x ∈ t.ranks, y ∈ opened p x := fun y hy =>
    List.mem_flatMap.1 (hperm.mem_iff.1 hy)
  have hobt : ∀ y ∈ c.pending, Obtainable p t y := fun y hy => by
    obtain ⟨x, hx, hy⟩ := hmem y hy
    unfold opened at hy
    split at hy
    · exact (Obtainable.declared hx).of_mem_loopsFor hp.coherent hy
    · rw [List.mem_singleton.1 hy]; exact .declared hx
  have hunstatic : ∀ y ∈ c.pending, p.rules.isStatic y = false := fun y hy => by
    obtain ⟨x, hx, hy⟩ := hmem y hy
    exact (walkable_of_mem_opened hp (hp.covered t ht x hx) hy).2
  have hall : (c.pending.flatMap p.loopsFor).Perm (t.ranks.flatMap p.loopsFor) := by
    refine (hperm.flatMap_right p.loopsFor).trans ?_
    rw [List.flatMap_assoc, List.flatMap_congr fun x hx => flatMap_opened hp (hp.covered t ht x hx)]
  have hnone : c.consumed = [] := by rw [hfields]; rfl
  refine ⟨⟨by rw [hfields]; rfl, by rw [hfields]; rfl, hobt, hunstatic, hsorted, ?_, ?_, ?_⟩, hnone⟩
  · rwa [hnone, List.nil_append]
  · rw [hnone]; exact fun a ha => absurd ha List.not_mem_nil
  · rw [hnone]; exact List.Pairwise.nil

/-! ## Splitting late or early -/

/-- **The final ranks of a tensor, sorted**, have strictly increasing positions in the loop order. -/
theorem exists_settled (hp : p.Named) (ht : t ∈ p.tensors) : ∃ all settled,
    (p.cursor t).splitAll p.rules = .ok all ∧ p.loopOrder.apply all = .ok settled ∧
    settled.pending.Perm (t.ranks.flatMap p.loopsFor) ∧
    settled.pending.Pairwise (fun a b => p.loops.idxOf a < p.loops.idxOf b) := by
  have hp' := hp.toConsistent
  have hloops : ∀ f ∈ t.ranks.flatMap p.loopsFor, f ∈ p.loops := fun f hf => by
    obtain ⟨x, hx, hf⟩ := List.mem_flatMap.1 hf
    exact hp.covered t ht x hx f hf
  obtain ⟨ranks, hperm, hsorted, happly⟩ := Program.apply_sorted hp'
    (c := (p.cursor t).withPending (t.ranks.flatMap p.loopsFor))
    fun f hf => Program.covered_of_mem_loops hp' (hloops f hf)
  refine ⟨_, _, Program.splitAll_eq hp.coherent (p.cursor t), happly, hperm, ?_⟩
  have hnd : ranks.Nodup := hperm.nodup_iff.2 (hp.nodup_loopsFor ht)
  refine (hsorted.and hnd).imp_of_mem ?_
  rintro a b ha hb ⟨hle, hne⟩
  have hla := hloops a (hperm.mem_iff.1 ha)
  have hlb := hloops b (hperm.mem_iff.1 hb)
  rw [Program.place_of_mem hp' hla, Program.place_of_mem hp' hlb] at hle
  exact Nat.lt_of_le_of_ne hle fun h => hne ((List.idxOf_inj hla).1 h)

/-- **Splitting on the way agrees with splitting first.**  The walk of a tensor of a validated program consumes, and its
dependencies enter, exactly the ranks that the tensor has pending when all its splits are made and its ranks are sorted
once: every rank that it has in the end, once, in strictly increasing position in the loop order. -/
theorem walk_agrees_with_splitAll (hp : p.Validated) (ht : t ∈ p.tensors) :
    ∃ (ranks walked : List Dependency) (opened start last all settled : Cursor) (places : List Nat),
      rankPart p t.root (p.cursor t) t.ranks = .ok (ranks, opened) ∧ p.loopOrder.apply opened = .ok start ∧
      walkAll p start = .ok (walked, last) ∧ last.pending = [] ∧
      (p.cursor t).splitAll p.rules = .ok all ∧ p.loopOrder.apply all = .ok settled ∧
      last.consumed = settled.pending ∧ entered walked = settled.pending ∧
      settled.pending.Perm (t.ranks.flatMap p.loopsFor) ∧ settled.pending.Nodup ∧
      settled.pending.map p.loopOrder.position? = places.map some ∧ places.Pairwise (· < ·) := by
  have hn := hp.named
  have hc := hp.consistent
  obtain ⟨start, ranks, opened, hopened, hstart⟩ := exists_opens hc ht
  obtain ⟨htrack, hnone⟩ := Opens.onTrack hc ht ⟨ranks, opened, hopened, hstart⟩
  obtain ⟨walked, last, hwalk, hend⟩ := htrack.walkAll_ends hn ht
  have htrip : Trip p start walked last := trip_of_walk hwalk
  have hlast := htrack.trip hn ht htrip
  obtain ⟨all, settled, hall, hsettled, hperm, hincreasing⟩ := exists_settled hn ht
  have hconsumed : last.consumed.Perm (t.ranks.flatMap p.loopsFor) := by
    have := hlast.perm
    rwa [hend, List.flatMap_nil, List.append_nil] at this
  have heq : last.consumed = settled.pending := by
    refine List.Perm.eq_of_pairwise ?_ hlast.increasing hincreasing (hconsumed.trans hperm.symm)
    intro a b _ _ hab hba
    omega
  have hentered : last.consumed = entered walked := by
    rw [htrip.consumed_eq hn ht htrack, hnone, List.nil_append]
  refine ⟨ranks, walked, opened, start, last, all, settled, settled.pending.map p.loops.idxOf, hopened, hstart, hwalk,
    hend, hall, hsettled, heq, hentered.symm.trans heq, hperm, hperm.nodup_iff.2 (hn.nodup_loopsFor ht), ?_, ?_⟩
  · rw [List.map_map]
    refine List.map_congr_left fun f hf => ?_
    obtain ⟨x, hx, hf⟩ := List.mem_flatMap.1 (hperm.mem_iff.1 hf)
    exact Program.position?_of_mem hc (hc.covered t ht x hx f hf)
  · rwa [List.pairwise_map]

/-- One tensor leads another in the two steps that split a rank, and a loop comes between the two. -/
def twoSteps : Program :=
  ⟨[⟨"A", some ["K", "M"]⟩, ⟨"B", some ["K"]⟩], "B", ["K2", "M", "K1", "K0"],
    ⟨[⟨"K", [⟨.uniformOccupancy, 6, "A"⟩, ⟨.uniformOccupancy, 3, "A"⟩]⟩]⟩⟩

/-- The checks on this program, and the beginning of the walk of its second tensor. -/
theorem evaluated_twoSteps : twoSteps.problem? = none ∧
    RuleSet.empty.addAll twoSteps.rules.rules = .ok twoSteps.rules ∧
    (rankPart twoSteps "B" (twoSteps.cursor ⟨"B", some ["K"]⟩) ["K"]).map Prod.snd =
      .ok ⟨"B", ["K"], [], ["K"], true, false⟩ ∧
    twoSteps.rules.isDynamic "K" = true ∧ twoSteps.rules.isDynamic "K2" = false ∧
    twoSteps.rules.isDynamic "K1I" = true := by
  decide +kernel

theorem validated_twoSteps : twoSteps.Validated := .of_problem? evaluated_twoSteps.1 evaluated_twoSteps.2.1

/-- The tensor with two ranks enters the loop over its second one between the loops over the parts of its first. -/
theorem walk_agrees_twoSteps : twoSteps.Validated ∧ ⟨"A", some ["K", "M"]⟩ ∈ twoSteps.tensors ∧
    ∃ (ranks walked : List Dependency) (opened start last : Cursor),
      rankPart twoSteps "A" (twoSteps.cursor ⟨"A", some ["K", "M"]⟩) ["K", "M"] = .ok (ranks, opened) ∧
      twoSteps.loopOrder.apply opened = .ok start ∧ walkAll twoSteps start = .ok (walked, last) ∧
      last.pending = [] ∧ last.consumed = ["K2", "M", "K1", "K0"] ∧ entered walked = ["K2", "M", "K1", "K0"] := by
  have ht : (⟨"A", some ["K", "M"]⟩ : Tensor) ∈ twoSteps.tensors := List.mem_cons_self
  obtain ⟨ranks, walked, opened, start, last, all, settled, -, hopened, hstart, hwalk, hend, hall, hsettled, hlast,
    hentered, -⟩ := walk_agrees_with_splitAll validated_twoSteps ht
  have hall' : (twoSteps.cursor ⟨"A", some ["K", "M"]⟩).splitAll twoSteps.rules =
      .ok ((twoSteps.cursor ⟨"A", some ["K", "M"]⟩).withPending ["K2", "K1", "K0", "M"]) := by decide +kernel
  rw [hall] at hall'
  cases hall'
  have hsettled' : twoSteps.loopOrder.apply ((twoSteps.cursor ⟨"A", some ["K", "M"]⟩).withPending
      ["K2", "K1", "K0", "M"]) = .ok ((twoSteps.cursor ⟨"A", some ["K", "M"]⟩).withPending
      ["K2", "M", "K1", "K0"]) := by cbv
  rw [hsettled] at hsettled'
  cases hsettled'
  exact ⟨validated_twoSteps, ht, ranks, walked, opened, start, last, hopened, hstart, hwalk, hend, hlast, hentered⟩

end Wiring
end LoopNest
