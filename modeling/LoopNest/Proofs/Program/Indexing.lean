import Mathlib.Data.List.Basic
import LoopNest.IndexedCursor
/-!
# Proofs.Program.Indexing — a cursor goes along with its position

A cursor keeps the consumed and the pending ranks apart; by position, both are one list and a count (`Cursor.indexed`).
Whatever is done with a cursor can be done with its ranks and its position, and gives the same ranks, the same position
and the same problem (`performIndexed_indexed`).  So the position never leaves the ranks (`perform_indexedCursor`).
-/
namespace LoopNest

/-- The places before the first occurrence of a member, and those after it. -/
theorem take_idxOf (x : String) (l : List String) : l.take (l.idxOf x) = l.takeWhile (· ≠ x) := by
  rw [List.takeWhile_eq_take_findIdx_not, List.idxOf]
  congr 2
  funext y
  by_cases h : y = x <;> simp [h]

theorem drop_idxOf_succ (x : String) (l : List String) : l.drop (l.idxOf x + 1) = (l.dropWhile (· ≠ x)).drop 1 := by
  rw [List.dropWhile_eq_drop_findIdx_not, List.drop_drop, List.idxOf]
  congr 3
  funext y
  by_cases h : y = x <;> simp [h]

namespace Cursor

variable {c : Cursor} {rules : RuleSet}

/-- **A cursor by position**: all of its ranks, and how many are consumed. -/
def indexed (c : Cursor) : IndexedCursor :=
  ⟨c.root, c.declared, c.consumed ++ c.pending, c.consumed.length, c.output, c.fromFiber⟩

/-- The result of an operation that may fail, by position. -/
def indexedResult : Except (Problem × Cursor) Cursor → Except (Problem × IndexedCursor) IndexedCursor
  | .ok d => .ok d.indexed
  | .error e => .error (e.1, e.2.indexed)

@[simp] theorem pending_indexed (c : Cursor) : c.indexed.pending = c.pending := List.drop_left

@[simp] theorem label_indexed (c : Cursor) : c.indexed.label = c.label := rfl

theorem withPending_indexed (c : Cursor) (l : List String) : c.indexed.withPending l = (c.withPending l).indexed := by
  simp [IndexedCursor.withPending, withPending, indexed]

theorem pop?_indexed (c : Cursor) : c.indexed.pop? = c.pop?.map (fun r => (r.1, r.2.indexed)) := by
  cases h : c.pending with
  | nil => simp [IndexedCursor.pop?, IndexedCursor.peek?, pop?, indexed, h]
  | cons x rest => simp [IndexedCursor.pop?, IndexedCursor.peek?, pop?, indexed, h]

theorem split_indexed (c : Cursor) (rules : RuleSet) (x : String) :
    c.indexed.split rules x = indexedResult (c.split rules x) := by
  unfold IndexedCursor.split split
  rw [pending_indexed, label_indexed]
  by_cases hx : x ∈ c.pending
  · rw [if_pos hx, if_pos hx]
    cases rules.split? x with
    | none => rfl
    | some s =>
      dsimp only
      rw [take_idxOf, drop_idxOf_succ, withPending_indexed]
      rfl
  · rw [if_neg hx, if_neg hx]
    rfl

theorem splitTimes_indexed (rules : RuleSet) : ∀ (fuel : Nat) (c : Cursor),
    IndexedCursor.splitTimes rules fuel c.indexed = indexedResult (splitTimes rules fuel c)
  | 0, _ => rfl
  | fuel + 1, c => by
    rw [IndexedCursor.splitTimes, splitTimes, pending_indexed]
    cases c.pending.find? rules.isPartitioned with
    | none => rfl
    | some r =>
      dsimp only
      rw [split_indexed]
      cases c.split rules r with
      | error e => rfl
      | ok d => exact splitTimes_indexed rules fuel d

theorem splitAll_indexed (c : Cursor) (rules : RuleSet) : c.indexed.splitAll rules = indexedResult (c.splitAll rules) := by
  rw [IndexedCursor.splitAll, splitAll, pending_indexed, splitTimes_indexed]

theorem sort_indexed (c : Cursor) (l : LoopOrder) : c.indexed.sort l = indexedResult (l.apply c) := by
  rw [IndexedCursor.sort, LoopOrder.apply, pending_indexed, label_indexed]
  cases c.pending.find? (fun r => (l.key? r).isNone) with
  | some r => rfl
  | none =>
    dsimp only
    rw [withPending_indexed]
    rfl

/-! ## Runs of operations -/

/-- **What can be done with a cursor.** -/
inductive Operation where
  | pop
  | reset
  | reroot
  | mark (output : Bool)
  | split (rank : String)
  | splitAll
  | sort

/-- The cursor that is left, and what went wrong. -/
def attempt {γ : Type} : Except (Problem × γ) γ → γ × Option Problem
  | .ok d => (d, none)
  | .error e => (e.2, some e.1)

/-- **The cursor after an operation**, and what went wrong. -/
def Operation.perform (p : Program) (c : Cursor) : Operation → Cursor × Option Problem
  | .pop => ((c.pop?.map Prod.snd).getD c, none)
  | .reset => (c.reset, none)
  | .reroot => (c.reroot, none)
  | .mark output => ({ c with output := output }, none)
  | .split rank => attempt (c.split p.rules rank)
  | .splitAll => attempt (c.splitAll p.rules)
  | .sort => attempt (p.loopOrder.apply c)

/-- **The cursor by position after an operation**, and what went wrong. -/
def Operation.performIndexed (p : Program) (c : IndexedCursor) : Operation → IndexedCursor × Option Problem
  | .pop => ((c.pop?.map Prod.snd).getD c, none)
  | .reset => (c.reset, none)
  | .reroot => (c.reroot, none)
  | .mark output => ({ c with output := output }, none)
  | .split rank => attempt (c.split p.rules rank)
  | .splitAll => attempt (c.splitAll p.rules)
  | .sort => attempt (c.sort p.loopOrder)

/-- The cursor after operations one after the other. -/
def perform (p : Program) (c : Cursor) (ops : List Operation) : Cursor := ops.foldl (fun d o => (o.perform p d).1) c

theorem attempt_indexedResult (r : Except (Problem × Cursor) Cursor) :
    attempt (indexedResult r) = ((attempt r).1.indexed, (attempt r).2) := by
  cases r <;> rfl

/-- **An operation does the same with a cursor and with its position.** -/
theorem Operation.performIndexed_indexed (p : Program) (c : Cursor) (o : Operation) :
    o.performIndexed p c.indexed = ((o.perform p c).1.indexed, (o.perform p c).2) := by
  cases o with
  | pop =>
    rw [performIndexed, perform, pop?_indexed]
    cases c.pop? <;> rfl
  | reset => rfl
  | reroot => rfl
  | mark output => rfl
  | split x => rw [performIndexed, perform, split_indexed, attempt_indexedResult]
  | splitAll => rw [performIndexed, perform, splitAll_indexed, attempt_indexedResult]
  | sort => rw [performIndexed, perform, sort_indexed, attempt_indexedResult]

end Cursor

namespace IndexedCursor

/-- The cursor by position after operations one after the other. -/
def perform (p : Program) (c : IndexedCursor) (ops : List Cursor.Operation) : IndexedCursor :=
  ops.foldl (fun d o => (o.performIndexed p d).1) c

theorem perform_indexed (p : Program) : ∀ (ops : List Cursor.Operation) (c : Cursor),
    c.indexed.perform p ops = (c.perform p ops).indexed
  | [], _ => rfl
  | o :: ops, c => by
    rw [perform, List.foldl_cons, o.performIndexed_indexed]
    exact perform_indexed p ops _

end IndexedCursor

/-- **A run on the position of a cursor goes along with the run on the cursor**, and stays inside its ranks. -/
theorem Program.perform_indexedCursor (p : Program) (t : Tensor) (ops : List Cursor.Operation) :
    (p.indexedCursor t).perform p ops = ((p.cursor t).perform p ops).indexed ∧
    ((p.indexedCursor t).perform p ops).pos ≤ ((p.indexedCursor t).perform p ops).ranks.length := by
  have hrun : (p.indexedCursor t).perform p ops = ((p.cursor t).perform p ops).indexed :=
    IndexedCursor.perform_indexed p ops (p.cursor t)
  refine ⟨hrun, ?_⟩
  rw [hrun, Cursor.indexed, List.length_append]
  exact Nat.le_add_right _ _

end LoopNest
