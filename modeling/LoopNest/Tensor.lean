import LoopNest.Rules
/-!
# Tensor — tensors, and cursors that walk through their ranks

A `Cursor` is a tensor on its way through a loop nest: the ranks that loops have consumed, and those still pending.
-/
namespace LoopNest

/-- **A tensor**: its name and its ranks.  A tensor declared without a list of ranks has none, which its description
tells apart from an empty list. -/
structure Tensor where
  root : String
  declared : Option (List String)
deriving DecidableEq, Repr

namespace Tensor

/-- The ranks of a tensor, outermost first. -/
def ranks (t : Tensor) : List String := t.declared.getD []

/-- Whether a tensor has a rank. -/
def hasRank (t : Tensor) (rank : String) : Bool := decide (rank ∈ t.ranks)

/-- The printed form of a tensor. -/
def label (t : Tensor) : String := t.root ++ "[" ++ Text.joined ", " t.ranks ++ "]"

end Tensor

/-- The name of the fiber of a tensor at a rank, in small letters. -/
def fiberName (root rank : String) : String := Text.lower root ++ "_" ++ Text.lower rank

/-- **A tensor on its way through a loop nest.** -/
structure Cursor where
  root : String
  /-- The ranks at the start. -/
  declared : List String
  /-- The ranks that loops have consumed, outermost first. -/
  consumed : List String
  /-- The ranks still to be consumed, outermost first. -/
  pending : List String
  /-- Whether the tensor is the output of the program. -/
  output : Bool
  /-- Whether the tensor was made anew from a fiber. -/
  fromFiber : Bool
deriving DecidableEq, Repr

namespace Cursor

/-- The cursor at the start of a tensor. -/
def ofTensor (t : Tensor) : Cursor := ⟨t.root, t.ranks, [], t.ranks, false, false⟩

/-- All ranks, consumed and pending. -/
def ranks (c : Cursor) : List String := c.consumed ++ c.pending

/-- The next rank. -/
def peek? (c : Cursor) : Option String := c.pending.head?

/-- Whether no rank is pending. -/
def exhausted (c : Cursor) : Bool := c.pending.isEmpty

/-- **The cursor one rank further**, and that rank. -/
def pop? (c : Cursor) : Option (String × Cursor) :=
  match c.pending with
  | [] => none
  | r :: rs => some (r, { c with consumed := c.consumed ++ [r], pending := rs })

/-- The cursor back at the start. -/
def reset (c : Cursor) : Cursor := { c with consumed := [], pending := c.declared, fromFiber := false }

/-- The cursor on a tensor made anew from the current fiber. -/
def reroot (c : Cursor) : Cursor := { c with fromFiber := true }

/-- The cursor with other pending ranks. -/
def withPending (c : Cursor) (pending : List String) : Cursor := { c with pending := pending }

/-- **The name of what the cursor stands at**: a fiber while ranks are pending, else a value, or a reference to one if
the tensor is written. -/
def fiber (c : Cursor) : String :=
  match c.pending with
  | r :: _ => fiberName c.root r
  | [] => Text.lower c.root ++ (if c.output then "_ref" else "_val")

/-- The name of the tensor with its present ranks. -/
def tensorName (c : Cursor) : String := c.root ++ "_" ++ String.join c.ranks

/-- The printed form of a cursor. -/
def label (c : Cursor) : String := if c.fromFiber then c.tensorName ++ " (from fiber)" else c.tensorName

/-- **Splits a pending rank** in place into the two ranks that its step makes.  An error comes with the cursor as it is
left. -/
def split (c : Cursor) (rules : RuleSet) (rank : String) : Except (Problem × Cursor) Cursor :=
  if rank ∈ c.pending then
    match rules.split? rank with
    | none => .error (.notSplittable c.label rank, c)
    | some s =>
      .ok (c.withPending (c.pending.takeWhile (· ≠ rank) ++ s.pair ++ (c.pending.dropWhile (· ≠ rank)).drop 1))
  else .error (.notPending c.label rank c.pending, c)

/-- How many splits a rank stands for, with all splits of what it is split into. -/
def pendingSplits (rules : RuleSet) (rank : String) : Nat := ((rules.split? rank).map Split.remaining).getD 0

/-- Splits the first pending rank that can be split, `fuel` times at most. -/
def splitTimes (rules : RuleSet) : Nat → Cursor → Except (Problem × Cursor) Cursor
  | 0, c => .ok c
  | fuel + 1, c =>
    match c.pending.find? rules.isPartitioned with
    | none => .ok c
    | some r =>
      match c.split rules r with
      | .error e => .error e
      | .ok d => splitTimes rules fuel d

/-- **Splits pending ranks from left to right until none is left that can be split.**  An error comes with the cursor
as it was then. -/
def splitAll (c : Cursor) (rules : RuleSet) : Except (Problem × Cursor) Cursor :=
  splitTimes rules ((c.pending.map (pendingSplits rules)).foldr (· + ·) 0) c

end Cursor
end LoopNest
