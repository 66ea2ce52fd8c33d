import LoopNest.Fault
import LoopNest.Node.Basic
/-!
# Problem — everything that can be wrong with a program

A `Problem` says what is wrong and with what.  Its code and its wording are read off by `code` and `message`, and
`fault` makes it a link of an error chain.
-/
namespace LoopNest

/-- What a name is given to. -/
inductive Subject where
  | tensor
  | rank
deriving DecidableEq, Repr

namespace Subject

/-- What a name is called in messages. -/
def title : Subject → String
  | .tensor => "tensor name"
  | .rank => "rank id"

/-- The code of problems with a name. -/
def code : Subject → Code
  | .tensor => .invalidTensor
  | .rank => .invalidRank

end Subject

/-- **What is wrong.** -/
inductive Problem where
  /-- A name is empty. -/
  | emptyName (of : Subject)
  /-- A name takes more than `limit` bytes. -/
  | longName (of : Subject) (limit : Nat) (name : String)
  /-- A name has characters that names do not have. -/
  | badName (of : Subject) (name : String)
  /-- A value is listed twice. -/
  | duplicate (code : Code) (what value : String)
  /-- A path has none of the extensions. -/
  | badExtension (path : String) (allowed : List String)
  /-- A format has no reader and no writer. -/
  | unknownFormat (format : String)
  /-- A description cannot be read. -/
  | unreadable (format : String)
  /-- A description has keys that mean nothing. -/
  | unknownKeys (format : String) (keys : List String)
  /-- There is no file at a path. -/
  | noFile (path : String)
  /-- A file cannot be read. -/
  | readFailed (path : String)
  /-- A file cannot be written. -/
  | writeFailed (path : String)
  /-- A flag has a value that it cannot have. -/
  | badFlag (flag value : String) (allowed : List String)
  /-- A rule has no steps. -/
  | noSteps (rank : String)
  /-- A rank has a rule already. -/
  | partitionedTwice (rank : String)
  /-- A rank is made by the rule of another rank. -/
  | alreadyProduced (rank origin : String)
  /-- A step is of no known kind. -/
  | unknownKind (rank : String) (step : Nat) (kind : String)
  /-- The size of a step is not positive. -/
  | badSize (rank : String) (step : Nat) (size : Int)
  /-- A rule has both static and dynamic steps. -/
  | mixedSteps (rank : String)
  /-- A dynamic step has no leader. -/
  | leaderMissing (rank : String) (step : Nat) (kind : String)
  /-- A static step has a leader. -/
  | leaderUnwanted (rank : String) (step : Nat) (kind : String)
  /-- A rank that a rule makes belongs to another rule. -/
  | derivedCollides (rank derived : String)
  /-- A rank has no rule. -/
  | notPartitioned (rank : String)
  /-- A program has no tensors. -/
  | noTensors
  /-- A rank of a tensor has a bad id. -/
  | badTensorRank (tensor message : String)
  /-- The output is not a tensor of the program. -/
  | outputUndeclared (output : String)
  /-- The loop order is empty. -/
  | noLoops
  /-- The loop order has a rank that a rule splits. -/
  | loopPartitioned (rank : String) (into : List String)
  /-- A rule splits a rank that no tensor has. -/
  | ruleUnused (rank : String)
  /-- A rule makes a rank that a tensor has. -/
  | derivedDeclared (rank derived : String)
  /-- A leader is not a tensor of the program. -/
  | leaderUndeclared (rank leader : String)
  /-- A leader does not have the rank that it leads. -/
  | leaderWithoutRank (rank leader : String)
  /-- A rank has no place in the loop order. -/
  | notInLoopOrder (rank : String) (loops : List String)
  /-- A rank of a tensor has no place in the loop order. -/
  | tensorNotInLoopOrder (tensor rank : String) (loops : List String)
  /-- A rank to be split is not pending. -/
  | notPending (cursor rank : String) (pending : List String)
  /-- A rank to be split has no rule. -/
  | notSplittable (cursor rank : String)
  /-- The leader of a step that splits a tensor is not declared. -/
  | wiringLeaderUndeclared (tensor rank leader : String)
  /-- The dependencies go round. -/
  | cyclic
  /-- Neither of two loops is inside the other. -/
  | loopsApart (outer inner : Node)
  /-- A part of the graph cannot be ordered. -/
  | layerCyclic (layer : Nat)
  /-- No order has every loop in its place. -/
  | noOrder
  /-- A list is no order of the graph. -/
  | notAnOrder (length nodes : Nat)
  /-- A loop is not in its place. -/
  | misplaced (loop : Node) (index : Nat) (required : Int)
  /-- Two schedules differ. -/
  | differs (index : Nat) (found wanted : Node)
deriving DecidableEq, Repr

namespace Problem

/-- What is said of a graph with a cycle. -/
def cycleText : String := "graph contains a cycle"

/-- **The code of a problem.** -/
def code : Problem → Code
  | .emptyName s => s.code
  | .longName s _ _ => s.code
  | .badName s _ => s.code
  | .duplicate c _ _ => c
  | .badExtension _ _ => .invalidFormat
  | .unknownFormat _ => .invalidFormat
  | .unreadable _ => .invalidFormat
  | .unknownKeys _ _ => .invalidFormat
  | .noFile _ => .fileNotFound
  | .readFailed _ => .invalidInput
  | .writeFailed _ => .invalidInput
  | .badFlag _ _ _ => .invalidInput
  | .noSteps _ => .invalidPartition
  | .partitionedTwice _ => .invalidPartition
  | .alreadyProduced _ _ => .invalidPartition
  | .unknownKind _ _ _ => .invalidPartition
  | .badSize _ _ _ => .invalidPartition
  | .mixedSteps _ => .invalidPartition
  | .leaderMissing _ _ _ => .invalidPartition
  | .leaderUnwanted _ _ _ => .invalidPartition
  | .derivedCollides _ _ => .invalidPartition
  | .notPartitioned _ => .partitionNotFound
  | .noTensors => .invalidProgram
  | .badTensorRank _ _ => .invalidRank
  | .outputUndeclared _ => .tensorNotFound
  | .noLoops => .invalidProgram
  | .loopPartitioned _ _ => .invalidProgram
  | .ruleUnused _ => .rankNotFound
  | .derivedDeclared _ _ => .invalidPartition
  | .leaderUndeclared _ _ => .tensorNotFound
  | .leaderWithoutRank _ _ => .invalidPartition
  | .notInLoopOrder _ _ => .rankNotFound
  | .tensorNotInLoopOrder _ _ _ => .rankNotFound
  | .notPending _ _ _ => .rankNotFound
  | .notSplittable _ _ => .partitionNotFound
  | .wiringLeaderUndeclared _ _ _ => .tensorNotFound
  | .cyclic => .internal
  | .loopsApart _ _ => .internal
  | .layerCyclic _ => .internal
  | .noOrder => .internal
  | .notAnOrder _ _ => .internal
  | .misplaced _ _ _ => .internal
  | .differs _ _ _ => .internal

/-- **The wording of a problem.** -/
def message : Problem → String
  | .emptyName s => s.title ++ " cannot be empty"
  | .longName s limit n =>
    s.title ++ " too long (max " ++ Text.decimal limit ++ " characters): " ++ Text.quoted n
  | .badName s n => "invalid " ++ s.title ++ ": " ++ Text.quoted n
  | .duplicate _ what v => "duplicate " ++ what ++ ": " ++ Text.quoted v
  | .badExtension p allowed =>
    "unsupported file type " ++ Text.quoted p ++ " (want one of " ++ Text.joined ", " allowed ++ ")"
  | .unknownFormat f => "unknown format " ++ Text.quoted f
  | .unreadable f => "decode " ++ f
  | .unknownKeys f ks => "decode " ++ f ++ ": unknown keys " ++ Text.listed ks
  | .noFile p => "program file not found: " ++ p
  | .readFailed p => "read " ++ p
  | .writeFailed p => "write " ++ p
  | .badFlag f v allowed =>
    "invalid --" ++ f ++ " " ++ Text.quoted v ++ " (must be one of: " ++ Text.joined ", " allowed ++ ")"
  | .noSteps r => "rank " ++ r ++ ": no partitioning steps"
  | .partitionedTwice r => "rank " ++ r ++ ": partitioned twice"
  | .alreadyProduced r o => "rank " ++ r ++ ": already produced by the partition of " ++ o
  | .unknownKind r i k => "rank " ++ r ++ " step " ++ Text.decimal i ++ ": unknown kind " ++ Text.quoted k
  | .badSize r i n =>
    "rank " ++ r ++ " step " ++ Text.decimal i ++ ": size must be positive, got " ++ Text.signedDecimal n
  | .mixedSteps r => "rank " ++ r ++ ": mixes static and dynamic steps"
  | .leaderMissing r i k => "rank " ++ r ++ " step " ++ Text.decimal i ++ ": " ++ k ++ " needs a leader tensor"
  | .leaderUnwanted r i k => "rank " ++ r ++ " step " ++ Text.decimal i ++ ": " ++ k ++ " takes no leader"
  | .derivedCollides r d => "rank " ++ r ++ ": derived rank " ++ d ++ " collides with another partition"
  | .notPartitioned r => "rank " ++ r ++ " is not partitioned"
  | .noTensors => "no tensors declared"
  | .badTensorRank t m => "tensor " ++ t ++ ": " ++ m
  | .outputUndeclared o => "output tensor " ++ Text.quoted o ++ " is not declared"
  | .noLoops => "loop order is empty"
  | .loopPartitioned r into => "loop order lists " ++ r ++ ", which is partitioned into " ++ Text.listed into
  | .ruleUnused r => "partitioned rank " ++ r ++ " is not declared by any tensor"
  | .derivedDeclared r d => "rank " ++ r ++ ": derived rank " ++ d ++ " is also declared by a tensor"
  | .leaderUndeclared r l => "rank " ++ r ++ ": leader tensor " ++ Text.quoted l ++ " is not declared"
  | .leaderWithoutRank r l => "rank " ++ r ++ ": leader tensor " ++ l ++ " does not have rank " ++ r
  | .notInLoopOrder r loops => "rank " ++ r ++ " does not appear in the loop order " ++ Text.listed loops
  | .tensorNotInLoopOrder t r loops =>
    "tensor " ++ t ++ ": rank " ++ r ++ " does not appear in the loop order " ++ Text.listed loops
  | .notPending c r pending =>
    "tensor " ++ c ++ ": rank " ++ r ++ " is not pending (pending " ++ Text.listed pending ++ ")"
  | .notSplittable c r => "tensor " ++ c ++ ": rank " ++ r ++ " is not partitioned"
  | .wiringLeaderUndeclared t r l =>
    "tensor " ++ t ++ " rank " ++ r ++ ": leader " ++ Text.quoted l ++ " is not declared"
  | .cyclic => "dependency graph has a cycle"
  | .loopsApart a b => "loops " ++ a.label ++ " and " ++ b.label ++ " do not nest"
  | .layerCyclic k => "layer " ++ Text.decimal k ++ ": " ++ cycleText
  | .noOrder => "no topological order places every loop at its required index"
  | .notAnOrder len n =>
    "schedule of " ++ Text.decimal len ++ " nodes is not a topological order of the " ++ Text.decimal n ++
      "-node graph"
  | .misplaced l i want =>
    l.label ++ " scheduled at " ++ Text.decimal i ++ ", required at " ++ Text.signedDecimal want
  | .differs i found wanted =>
    "schedule differs from exhaustive reference at " ++ Text.decimal i ++ ": " ++ found.label ++ " != " ++ wanted.label

/-- **A problem as a link of an error chain.** -/
def fault (p : Problem) : Fault := .new p.code p.message

end Problem
end LoopNest
