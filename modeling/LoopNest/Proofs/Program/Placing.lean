import Mathlib
import LoopNest.Proofs.Program.Naming
/-!
# Proofs.Program.Placing — sorting and splitting the ranks of a cursor

The place of a rank is the position of the outermost loop that it needs (`exists_place`, `place_le`), and the loop order
brings the pending ranks of a cursor into the order of their places (`apply_of_keys`).  Splitting all that can be split
puts in the place of each rank the ranks that it becomes in the end (`splitAll_eq`): every split takes one unit off the
count of the splits that are left.
-/
namespace LoopNest

theorem lastIndex?_of_mem {α : Type} [DecidableEq α] {a : α} : ∀ {l : List α}, l.Nodup → a ∈ l →
    lastIndex? l a = some (l.idxOf a)
  | b :: l, hnd, h => by
    rw [List.nodup_cons] at hnd
    rw [lastIndex?]
    by_cases hba : b = a
    · subst hba
      rw [lastIndex?_eq_none_iff.2 hnd.1, List.idxOf_cons_self, if_pos rfl]
    · have hl : a ∈ l := (List.mem_cons.1 h).resolve_left (Ne.symm hba)
      rw [lastIndex?_of_mem hnd.2 hl, List.idxOf_cons_ne _ hba]

theorem Cursor.split_of_mem {c : Cursor} {rules : RuleSet} {x : String} {s : Split} (hx : x ∈ c.pending)
    (hs : rules.split? x = some s) : ∃ before after, c.pending = before ++ x :: after ∧
      c.split rules x = .ok (c.withPending (before ++ s.pair ++ after)) := by
  obtain ⟨before, after, hp, hnot⟩ := List.eq_append_cons_of_mem hx
  have hpos : ∀ y ∈ before, decide (y ≠ x) = true := fun y hy => decide_eq_true fun h => hnot (h ▸ hy)
  refine ⟨before, after, hp, ?_⟩
  rw [Cursor.split, if_pos hx, hs, hp]
  simp only [List.takeWhile_append_of_pos hpos, List.dropWhile_append_of_pos hpos]
  simp

namespace Program

variable {p : Program} {x f : String} {s : Split}

/-! ## Places -/

theorem position?_of_mem (hp : p.Consistent) (hx : x ∈ p.loops) :
    p.loopOrder.position? x = some (p.loops.idxOf x) :=
  lastIndex?_of_mem hp.nodup_loops hx

/-- The position in the loop order at which a rank is sorted in. -/
def place (p : Program) (x : String) : Nat := (p.loopOrder.key? x).getD 0

theorem place_of_mem (hp : p.Consistent) (hx : x ∈ p.loops) : p.place x = p.loops.idxOf x := by
  rw [place, LoopOrder.key?, position?_of_mem hp hx]
  rfl

theorem filterMap_position? (hp : p.Consistent) {l : List String} (hl : ∀ f ∈ l, f ∈ p.loops) :
    l.filterMap p.loopOrder.position? = l.map p.loops.idxOf := by
  rw [← List.filterMap_eq_map]
  exact List.filterMap_congr fun f hf => position?_of_mem hp (hl f hf)

/-- **The place of a rank that is split is the least position of the ranks that it becomes.** -/
theorem isLeast_place (hp : p.Consistent) (hc : p.Covered x) :
    p.place x ∈ (p.loopsFor x).map p.loops.idxOf ∧ ∀ i ∈ (p.loopsFor x).map p.loops.idxOf, p.place x ≤ i := by
  cases hs : p.rules.split? x with
  | none =>
    have hx := hc.mem_loops hs
    simp [place_of_mem hp hx, loopsFor_of_unsplit hs]
  | some s =>
    have hfinals : ∀ f ∈ s.finals, f ∈ p.loops := fun f hf => hc f (by rwa [loopsFor_of_split hs])
    have hnot : x ∉ p.loops := fun hx => by
      rw [hp.loops_unsplit x hx] at hs
      cases hs
    have hpos : p.loopOrder.position? x = none := LoopOrder.position?_eq_none_iff.2 hnot
    have hkey : p.loopOrder.key? x = (s.finals.map p.loops.idxOf).min? := by
      rw [LoopOrder.key?, hpos, ← filterMap_position? hp hfinals]
      change ((p.rules.finals x).filterMap p.loopOrder.position?).min? = _
      rw [RuleSet.finals, hs]
      rfl
    obtain ⟨k, hk⟩ := Option.isSome_iff_exists.1 (hc.key?_isSome hp.coherent)
    rw [loopsFor_of_split hs, place, hk]
    rw [hk] at hkey
    exact List.min?_eq_some_iff.1 hkey.symm

theorem exists_place (hp : p.Consistent) (hc : p.Covered x) : ∃ f ∈ p.loopsFor x, p.place x = p.loops.idxOf f := by
  obtain ⟨f, hf, heq⟩ := List.mem_map.1 (isLeast_place hp hc).1
  exact ⟨f, hf, heq.symm⟩

theorem place_le (hp : p.Consistent) (hc : p.Covered x) (hf : f ∈ p.loopsFor x) : p.place x ≤ p.loops.idxOf f :=
  (isLeast_place hp hc).2 _ (List.mem_map_of_mem hf)

/-! ## Sorting -/

/-- Ranks in the order of their places; those with the same place as they were. -/
def byPlace (p : Program) (l : List String) : List String := l.mergeSort fun a b => decide (p.place a ≤ p.place b)

theorem perm_byPlace (p : Program) (l : List String) : (p.byPlace l).Perm l := List.mergeSort_perm _ _

theorem place_trans (p : Program) (a b c : String) (hab : decide (p.place a ≤ p.place b) = true)
    (hbc : decide (p.place b ≤ p.place c) = true) : decide (p.place a ≤ p.place c) = true :=
  decide_eq_true (Nat.le_trans (of_decide_eq_true hab) (of_decide_eq_true hbc))

theorem place_total (p : Program) (a b : String) :
    (decide (p.place a ≤ p.place b) || decide (p.place b ≤ p.place a)) = true := by
  rw [Bool.or_eq_true, decide_eq_true_eq, decide_eq_true_eq]
  exact Nat.le_total _ _

theorem pairwise_byPlace (p : Program) (l : List String) :
    (p.byPlace l).Pairwise fun a b => p.place a ≤ p.place b :=
  (List.pairwise_mergeSort (place_trans p) (place_total p) l).imp of_decide_eq_true

/-- **Sorting keeps the order of ranks with the same place.** -/
theorem filter_byPlace (p : Program) (l : List String) (k : Nat) :
    (p.byPlace l).filter (fun x => decide (p.place x = k)) = l.filter (fun x => decide (p.place x = k)) := by
  -- Ranks with one place are in order already, so they come out of the sorting as a sublist, and as many as went in.
  have hsame : (l.filter fun x => decide (p.place x = k)).Pairwise fun a b => decide (p.place a ≤ p.place b) = true := by
    refine List.pairwise_of_forall_mem_list fun a ha b hb => decide_eq_true ?_
    have ha := of_decide_eq_true (List.mem_filter.1 ha).2
    have hb := of_decide_eq_true (List.mem_filter.1 hb).2
    omega
  have hsub : (l.filter fun x => decide (p.place x = k)).Sublist (p.byPlace l) :=
    List.sublist_mergeSort (place_trans p) (place_total p) hsame List.filter_sublist
  have hkept := hsub.filter fun x => decide (p.place x = k)
  rw [List.filter_filter, List.filter_congr fun x _ => Bool.and_self _] at hkept
  exact (hkept.eq_of_length ((perm_byPlace p l).filter _).length_eq.symm).symm

theorem byPlace_of_pairwise {l : List String} (h : l.Pairwise fun a b => p.place a ≤ p.place b) : p.byPlace l = l :=
  List.mergeSort_of_pairwise (h.imp decide_eq_true)

/-- **The loop order sorts pending ranks that have a key by their places.** -/
theorem apply_of_keys {c : Cursor} (h : ∀ x ∈ c.pending, (p.loopOrder.key? x).isSome = true) :
    p.loopOrder.apply c = .ok (c.withPending (p.byPlace c.pending)) := by
  have hnone : c.pending.find? (fun r => (p.loopOrder.key? r).isNone) = none := by
    rw [List.find?_eq_none]
    intro x hx
    rw [Option.isNone_iff_eq_none]
    exact Option.isSome_iff_ne_none.1 (h x hx)
  rw [LoopOrder.apply, hnone]
  rfl

theorem apply_sorted (hp : p.Consistent) {c : Cursor} (h : ∀ x ∈ c.pending, p.Covered x) : ∃ ranks,
    ranks.Perm c.pending ∧ ranks.Pairwise (fun a b => p.place a ≤ p.place b) ∧
    p.loopOrder.apply c = .ok (c.withPending ranks) :=
  ⟨_, perm_byPlace p _, pairwise_byPlace p _, apply_of_keys fun x hx => (h x hx).key?_isSome hp.coherent⟩

/-! ## Splitting all that can be split -/

theorem pendingSplits_of_unsplit (h : p.rules.split? x = none) : Cursor.pendingSplits p.rules x = 0 := by
  rw [Cursor.pendingSplits, h]
  rfl

/-- **A split leaves one split less to be made.** -/
theorem pendingSplits_split (hp : p.rules.Coherent) (hs : p.rules.split? x = some s) :
    Cursor.pendingSplits p.rules x =
      Cursor.pendingSplits p.rules s.outer + Cursor.pendingSplits p.rules s.inner + 1 := by
  have hlt := Split.index_lt (hp.split?_eq_some_iff.1 hs).2.1
  have hx : Cursor.pendingSplits p.rules x = s.rule.steps.length - s.index := by rw [Cursor.pendingSplits, hs]; rfl
  rw [hx, pendingSplits_of_unsplit (hp.split?_of_mem_finals hs (hp.outer_mem_finals hs))]
  by_cases hlast : s.index + 1 = s.rule.steps.length
  · rw [pendingSplits_of_unsplit (hp.split?_of_mem_finals hs (by simp [Split.finals_of_last hlast]))]
    omega
  · obtain ⟨s', hs', hr, hi⟩ := hp.split?_inner hs hlast
    rw [Cursor.pendingSplits, hs', Option.map_some, Option.getD_some, Split.remaining, hr, hi]
    omega

theorem flatMap_loopsFor_of_unsplit {l : List String} (h : ∀ x ∈ l, p.rules.split? x = none) :
    l.flatMap p.loopsFor = l := by
  rw [List.flatMap_congr fun x hx => loopsFor_of_unsplit (h x hx), List.flatMap_singleton']

/-- **Splitting the first rank that can be split** leaves one split less, and the same ranks in the end. -/
theorem split_first (hp : p.rules.Coherent) {c : Cursor} (hfind : c.pending.find? p.rules.isPartitioned = some x) :
    ∃ pending, c.split p.rules x = .ok (c.withPending pending) ∧
      (c.pending.map (Cursor.pendingSplits p.rules)).sum = (pending.map (Cursor.pendingSplits p.rules)).sum + 1 ∧
      pending.flatMap p.loopsFor = c.pending.flatMap p.loopsFor := by
  have hpart : p.rules.isPartitioned x = true := List.find?_some hfind
  obtain ⟨s, hs⟩ := Option.isSome_iff_exists.1 hpart
  obtain ⟨before, after, hpend, hsplit⟩ := Cursor.split_of_mem (List.mem_of_find?_eq_some hfind) hs
  have hone := pendingSplits_split hp hs
  refine ⟨_, hsplit, ?_, ?_⟩
  · simp only [hpend, Split.pair, List.map_append, List.map_cons, List.map_nil, List.sum_append, List.sum_cons,
      List.sum_nil]
    omega
  · rw [hpend, List.flatMap_append, List.flatMap_append, ← loopsFor_split hp hs, List.flatMap_append, List.flatMap_cons,
      List.append_assoc]

theorem splitTimes_eq (hp : p.rules.Coherent) (fuel : Nat) {c : Cursor}
    (hfuel : (c.pending.map (Cursor.pendingSplits p.rules)).sum ≤ fuel) :
    Cursor.splitTimes p.rules fuel c = .ok (c.withPending (c.pending.flatMap p.loopsFor)) := by
  have hdone : ∀ {c : Cursor}, c.pending.find? p.rules.isPartitioned = none →
      c.withPending (c.pending.flatMap p.loopsFor) = c := by
    intro c hfind
    rw [flatMap_loopsFor_of_unsplit fun x hx => by
      simpa [RuleSet.isPartitioned] using List.find?_eq_none.1 hfind x hx]
    rfl
  induction fuel generalizing c with
  | zero =>
    cases hfind : c.pending.find? p.rules.isPartitioned with
    | none => rw [hdone hfind]; rfl
    | some x =>
      obtain ⟨pending, -, hcount, -⟩ := split_first hp hfind
      omega
  | succ fuel ih =>
    rw [Cursor.splitTimes]
    cases hfind : c.pending.find? p.rules.isPartitioned with
    | none => rw [hdone hfind]
    | some x =>
      obtain ⟨pending, hsplit, hcount, hsame⟩ := split_first hp hfind
      dsimp only
      rw [hsplit]
      dsimp only
      rw [ih (c := c.withPending pending) (by change (pending.map _).sum ≤ fuel; omega)]
      change Except.ok (c.withPending (pending.flatMap p.loopsFor)) = _
      rw [hsame]

/-- **Splitting all that can be split** puts in the place of each pending rank the ranks that it becomes in the end. -/
theorem splitAll_eq (hp : p.rules.Coherent) (c : Cursor) :
    c.splitAll p.rules = .ok (c.withPending (c.pending.flatMap p.loopsFor)) := by
  rw [Cursor.splitAll, ← List.sum_eq_foldr]
  exact splitTimes_eq hp _ (Nat.le_refl _)

end Program
end LoopNest
