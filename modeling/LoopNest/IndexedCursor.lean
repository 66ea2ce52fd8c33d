import LoopNest.Program
/-!
# IndexedCursor — cursors as a list of ranks and a position in it

An `IndexedCursor` has all ranks of a tensor in one list and counts those that loops have consumed.  The pending ranks
are those from the position on.  Whatever replaces them copies the ranks before the position and leaves the position
where it is.
-/
namespace LoopNest

/-- **A tensor on its way through a loop nest**, by the position of its next rank. -/
structure IndexedCursor where
  root : String
  /-- The ranks at the start. -/
  declared : List String
  /-- All ranks, outermost first. -/
  ranks : List String
  /-- How many ranks loops have consumed. -/
  pos : Nat
  /-- Whether the tensor is the output of the program. -/
  output : Bool
  /-- Whether the tensor was made anew from a fiber. -/
  fromFiber : Bool
deriving DecidableEq, Repr

namespace IndexedCursor

/-- The cursor at the start of a tensor. -/
def ofTensor (t : Tensor) : IndexedCursor := ⟨t.root, t.ranks, t.ranks, 0, false, false⟩

/-- The ranks from the position on. -/
def pending (c : IndexedCursor) : List String := c.ranks.drop c.pos

/-- The rank at the position. -/
def peek? (c : IndexedCursor) : Option String := c.ranks[c.pos]?

/-- Whether the position is behind the last rank. -/
def exhausted (c : IndexedCursor) : Bool := decide (c.ranks.length ≤ c.pos)

/-- **The cursor one position further**, and the rank that it passes. -/
def pop? (c : IndexedCursor) : Option (String × IndexedCursor) := c.peek?.map (fun r => (r, { c with pos := c.pos + 1 }))

/-- The cursor back at the start. -/
def reset (c : IndexedCursor) : IndexedCursor := { c with ranks := c.declared, pos := 0, fromFiber := false }

/-- The cursor on a tensor made anew from the current fiber. -/
def reroot (c : IndexedCursor) : IndexedCursor := { c with fromFiber := true }

/-- The cursor with other ranks from the position on. -/
def withPending (c : IndexedCursor) (pending : List String) : IndexedCursor :=
  { c with ranks := c.ranks.take c.pos ++ pending }

/-- The name of what the cursor stands at. -/
def fiber (c : IndexedCursor) : String :=
  match c.peek? with
  | some r => fiberName c.root r
  | none => Text.lower c.root ++ (if c.output then "_ref" else "_val")

/-- The name of the tensor with its present ranks. -/
def tensorName (c : IndexedCursor) : String := c.root ++ "_" ++ String.join c.ranks

/-- The printed form of a cursor. -/
def label (c : IndexedCursor) : String := if c.fromFiber then c.tensorName ++ " (from fiber)" else c.tensorName

/-- **Splits a pending rank**: the two ranks that its step makes replace the first place where it is pending. -/
def split (c : IndexedCursor) (rules : RuleSet) (rank : String) : Except (Problem × IndexedCursor) IndexedCursor :=
  if rank ∈ c.pending then
    match rules.split? rank with
    | none => .error (.notSplittable c.label rank, c)
    | some s =>
      let i := c.pending.idxOf rank
      .ok (c.withPending (c.pending.take i ++ s.pair ++ c.pending.drop (i + 1)))
  else .error (.notPending c.label rank c.pending, c)

/-- Splits the first pending rank that can be split, `fuel` times at most. -/
def splitTimes (rules : RuleSet) : Nat → IndexedCursor → Except (Problem × IndexedCursor) IndexedCursor
  | 0, c => .ok c
  | fuel + 1, c =>
    match c.pending.find? rules.isPartitioned with
    | none => .ok c
    | some r =>
      match c.split rules r with
      | .error e => .error e
      | .ok d => splitTimes rules fuel d

/-- **Splits pending ranks from left to right until none is left that can be split.** -/
def splitAll (c : IndexedCursor) (rules : RuleSet) : Except (Problem × IndexedCursor) IndexedCursor :=
  splitTimes rules ((c.pending.map (Cursor.pendingSplits rules)).foldr (· + ·) 0) c

/-- **Brings the pending ranks into loop order.** -/
def sort (c : IndexedCursor) (l : LoopOrder) : Except (Problem × IndexedCursor) IndexedCursor :=
  match c.pending.find? (fun r => (l.key? r).isNone) with
  | some r => .error (.tensorNotInLoopOrder c.label r l.ranks, c)
  | none => .ok (c.withPending (c.pending.mergeSort (fun a b => decide ((l.key? a).getD 0 ≤ (l.key? b).getD 0))))

end IndexedCursor

/-- The cursor at the start of a tensor, by position. -/
def Program.indexedCursor (p : Program) (t : Tensor) : IndexedCursor :=
  { IndexedCursor.ofTensor t with output := decide (t.root = p.output) }

end LoopNest
