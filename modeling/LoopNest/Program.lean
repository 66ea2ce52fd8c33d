import LoopNest.Graph.Basic
import LoopNest.Tensor
/-!
# Program — tensors, a loop order and rules that fit together

A `Program` is checked once, by `Program.make`.  Rules may be added to it afterwards (`extend`) and are then not
checked against its tensors and loops.
-/
namespace LoopNest

/-- **The order of the loops**, outermost first, and the rules by which ranks are split. -/
structure LoopOrder where
  ranks : List String
  rules : RuleSet
deriving DecidableEq, Repr

namespace LoopOrder

/-- The index of the loop over a rank. -/
def position? (l : LoopOrder) (rank : String) : Option Nat := lastIndex? l.ranks rank

/-- **Where a rank belongs in the loop order**: at its own loop, or else at the outermost of the loops over the ranks
that it is split into in the end. -/
def key? (l : LoopOrder) (rank : String) : Option Nat :=
  match l.position? rank with
  | some i => some i
  | none => ((l.rules.finals rank).filterMap l.position?).min?

/-- Where a rank belongs, or why it belongs nowhere. -/
def key (l : LoopOrder) (rank : String) : Except Problem Nat :=
  match l.key? rank with
  | some k => .ok k
  | none => .error (.notInLoopOrder rank l.ranks)

/-- **Brings the pending ranks of a cursor into loop order.**  Ranks that belong at the same loop keep their order.  An
error comes with the cursor as it is left. -/
def apply (l : LoopOrder) (c : Cursor) : Except (Problem × Cursor) Cursor :=
  match c.pending.find? (fun r => (l.key? r).isNone) with
  | some r => .error (.tensorNotInLoopOrder c.label r l.ranks, c)
  | none => .ok (c.withPending (c.pending.mergeSort (fun a b => decide ((l.key? a).getD 0 ≤ (l.key? b).getD 0))))

end LoopOrder

/-- **A program**: its tensors, the name of the one that is written, its loops and its rules. -/
structure Program where
  tensors : List Tensor
  output : String
  loops : List String
  rules : RuleSet
deriving DecidableEq, Repr

namespace Program

/-- The loop order of a program. -/
def loopOrder (p : Program) : LoopOrder := ⟨p.loops, p.rules⟩

/-- The tensor with a name. -/
def tensor? (p : Program) (name : String) : Option Tensor := p.tensors.find? (fun t => t.root == name)

/-- The tensor that is written. -/
def outputTensor (p : Program) : Tensor := (p.tensor? p.output).getD ⟨p.output, none⟩

/-- The cursor at the start of a tensor. -/
def cursor (p : Program) (t : Tensor) : Cursor := { Cursor.ofTensor t with output := decide (t.root = p.output) }

/-- The program with one more rule, which is not checked against its tensors and loops. -/
def extend (p : Program) (r : Rule) : Except Problem Program :=
  match p.rules.add r with
  | .error e => .error e
  | .ok rules => .ok { p with rules := rules }

/-- Whether some tensor has a rank. -/
def declares (p : Program) (rank : String) : Bool := p.tensors.any (fun t => t.hasRank rank)

/-- What is wrong with the id of a rank of a tensor. -/
def tensorRankProblem? (root rank : String) : Option Problem :=
  (Identifier.problem? .rank rank).map (fun e => .badTensorRank root e.message)

/-- What is wrong with a tensor after those named `seen`. -/
def tensorProblem? (seen : List String) (t : Tensor) : Option Problem :=
  (Identifier.problem? .tensor t.root).or <|
  (if t.root ∈ seen then some (.duplicate .invalidTensor "tensor name" t.root) else none).or <|
  (t.ranks.findSome? (tensorRankProblem? t.root)).or <|
  Identifier.uniqueProblem? .invalidTensor ("rank in tensor " ++ t.root) t.ranks

/-- What is wrong with the first bad tensor of a list. -/
def tensorsProblem? (seen : List String) : List Tensor → Option Problem
  | [] => none
  | t :: ts => (tensorProblem? seen t).or (tensorsProblem? (t.root :: seen) ts)

/-- What is wrong with a loop. -/
def loopProblem? (p : Program) (rank : String) : Option Problem :=
  (Identifier.problem? .rank rank).or <|
  if p.rules.isPartitioned rank then some (.loopPartitioned rank (p.rules.finals rank)) else none

/-- What is wrong with the leader of a step for `rank`. -/
def leaderProblem? (p : Program) (rank : String) (s : Step) : Option Problem :=
  if !s.isDynamic then none
  else
    match p.tensor? s.leader with
    | none => some (.leaderUndeclared rank s.leader)
    | some t => if t.hasRank rank then none else some (.leaderWithoutRank rank s.leader)

/-- What is wrong with a rule, seen from the tensors. -/
def ruleProblem? (p : Program) (r : Rule) : Option Problem :=
  (if p.declares r.rank then none else some (.ruleUnused r.rank)).or <|
  (((r.finalNames ++ r.intermediates).find? p.declares).map (.derivedDeclared r.rank)).or <|
  r.steps.findSome? (p.leaderProblem? r.rank)

/-- The loops that a rank needs. -/
def loopsFor (p : Program) (rank : String) : List String :=
  if p.rules.isPartitioned rank then p.rules.finals rank else [rank]

/-- What is wrong with the loops for the ranks of a tensor. -/
def coverageProblem? (p : Program) (t : Tensor) : Option Problem :=
  ((t.ranks.flatMap p.loopsFor).find? (fun r => decide (r ∉ p.loops))).map (fun r =>
    .tensorNotInLoopOrder t.root r p.loops)

/-- **What is wrong with a program.** -/
def problem? (p : Program) : Option Problem :=
  (if p.tensors.isEmpty then some .noTensors else none).or <|
  (tensorsProblem? [] p.tensors).or <|
  (if (p.tensor? p.output).isSome then none else some (.outputUndeclared p.output)).or <|
  (if p.loops.isEmpty then some .noLoops else none).or <|
  (p.loops.findSome? p.loopProblem?).or <|
  (Identifier.uniqueProblem? .invalidProgram "rank in loop order" p.loops).or <|
  (p.rules.rules.findSome? p.ruleProblem?).or <|
  p.tensors.findSome? p.coverageProblem?

/-- **A program, if nothing is wrong with it.** -/
def make (tensors : List Tensor) (output : String) (loops : List String) (rules : RuleSet) : Except Problem Program :=
  let p : Program := ⟨tensors, output, loops, rules⟩
  match p.problem? with
  | some e => .error e
  | none => .ok p

end Program
end LoopNest
