import LoopNest.Identifier
/-!
# Rules — how ranks are partitioned

A rule splits a rank `K` by `n` steps.  The first step splits `K` into the outer rank `Kn` and the intermediate
rank `K(n-1)I`, the next splits that one into `K(n-1)` and `K(n-2)I`, and so on; the last step leaves `K1` and `K0`.
The final ranks are thus `Kn … K1 K0`.  A `RuleSet` holds rules whose families of ranks do not overlap.
-/
namespace LoopNest

/-- How a step cuts a rank. -/
structure StepKind where
  name : String
deriving DecidableEq, Repr

namespace StepKind

/-- Pieces of one shape. -/
def uniformShape : StepKind := ⟨"uniform_shape"⟩
/-- A given number of pieces. -/
def nwayShape : StepKind := ⟨"nway_shape"⟩
/-- Pieces with equally many elements of a leading tensor. -/
def uniformOccupancy : StepKind := ⟨"uniform_occupancy"⟩

/-- Whether there is such a kind. -/
def isKnown (k : StepKind) : Bool := decide (k ∈ [uniformShape, nwayShape, uniformOccupancy])

/-- Whether the cuts depend on the elements, so that they can only be made when a fiber is at hand. -/
def isDynamic (k : StepKind) : Bool := decide (k = uniformOccupancy)

end StepKind

/-- One step of a rule.  The leader is empty when there is none. -/
structure Step where
  kind : StepKind
  size : Int
  leader : String
deriving DecidableEq, Repr

namespace Step

/-- Whether the step is dynamic. -/
def isDynamic (s : Step) : Bool := s.kind.isDynamic

/-- The printed form of a step. -/
def label (s : Step) : String :=
  if s.leader = "" then s.kind.name ++ "(" ++ Text.signedDecimal s.size ++ ")"
  else s.kind.name ++ "(" ++ s.leader ++ ", " ++ Text.signedDecimal s.size ++ ")"

/-- **What is wrong with step number `i` of a rule** for `rank` that is dynamic or not. -/
def problem? (rank : String) (dynamic : Bool) (i : Nat) (s : Step) : Option Problem :=
  if !s.kind.isKnown then some (.unknownKind rank i s.kind.name)
  else if s.size ≤ 0 then some (.badSize rank i s.size)
  else if s.isDynamic != dynamic then some (.mixedSteps rank)
  else if s.isDynamic && s.leader == "" then some (.leaderMissing rank i s.kind.name)
  else if !s.isDynamic && s.leader != "" then some (.leaderUnwanted rank i s.kind.name)
  else none

end Step

/-- The final rank with number `i`. -/
def finalName (rank : String) (i : Nat) : String := rank ++ Text.decimal i

/-- The intermediate rank with number `i`. -/
def intermediateName (rank : String) (i : Nat) : String := rank ++ Text.decimal i ++ "I"

/-- **A rule**: a rank and the steps that split it. -/
structure Rule where
  rank : String
  steps : List Step
deriving DecidableEq, Repr

/-- **One split of a rule**: the step with this index. -/
structure Split where
  rule : Rule
  index : Nat
  step : Step
deriving DecidableEq, Repr

namespace Rule

/-- **The final ranks of a rule**, outermost first. -/
def finalNames (r : Rule) : List String :=
  if r.steps.isEmpty then [] else (List.range (r.steps.length + 1)).reverse.map (finalName r.rank)

/-- The ranks between the splits of a rule, outermost first. -/
def intermediates (r : Rule) : List String :=
  (List.range' 1 (r.steps.length - 1)).reverse.map (intermediateName r.rank)

/-- The splits of a rule, in order. -/
def splits (r : Rule) : List Split := r.steps.zipIdx.map (fun s => ⟨r, s.2, s.1⟩)

/-- Whether a rule makes a rank. -/
def produces (r : Rule) (name : String) : Bool :=
  decide (name ∈ r.finalNames) || decide (name ∈ r.intermediates)

/-- What is wrong with the steps of a rule, taken by themselves. -/
def stepsProblem? (r : Rule) : Option Problem :=
  match r.steps with
  | [] => some (.noSteps r.rank)
  | s :: _ => r.steps.zipIdx.findSome? (fun t => t.1.problem? r.rank s.isDynamic (t.2 + 1))

end Rule

namespace Split

/-- The rank that is split. -/
def source (s : Split) : String :=
  if s.index = 0 then s.rule.rank else intermediateName s.rule.rank (s.rule.steps.length - s.index)

/-- The outer one of the two ranks that the split makes. -/
def outer (s : Split) : String := finalName s.rule.rank (s.rule.steps.length - s.index)

/-- The inner one of the two ranks that the split makes, which the next step splits again. -/
def inner (s : Split) : String :=
  if s.index + 1 = s.rule.steps.length then finalName s.rule.rank 0
  else intermediateName s.rule.rank (s.rule.steps.length - s.index - 1)

/-- The two ranks that the split makes. -/
def pair (s : Split) : List String := [s.outer, s.inner]

/-- The ranks that are there after this split and all splits inside of it. -/
def finals (s : Split) : List String := s.rule.finalNames.drop s.index

/-- How many splits there are from this one on. -/
def remaining (s : Split) : Nat := s.rule.steps.length - s.index

end Split

/-- **Rules for different ranks**, oldest first. -/
structure RuleSet where
  rules : List Rule
deriving DecidableEq, Repr

namespace RuleSet

/-- No rules. -/
def empty : RuleSet := ⟨[]⟩

/-- The ranks that have a rule. -/
def ranks (p : RuleSet) : List String := p.rules.map Rule.rank

/-- The rule of a rank. -/
def rule? (p : RuleSet) (rank : String) : Option Rule := p.rules.find? (fun r => r.rank == rank)

/-- The steps of the rule of a rank. -/
def steps (p : RuleSet) (rank : String) : List Step := ((p.rule? rank).map Rule.steps).getD []

/-- **The split of a rank**, be it one with a rule or one between two splits. -/
def split? (p : RuleSet) (rank : String) : Option Split :=
  (p.rules.flatMap Rule.splits).find? (fun s => s.source == rank)

/-- Whether a rank is split. -/
def isPartitioned (p : RuleSet) (rank : String) : Bool := (p.split? rank).isSome

/-- Whether a rank is split by a static step. -/
def isStatic (p : RuleSet) (rank : String) : Bool := (p.split? rank).any (fun s => !s.step.isDynamic)

/-- Whether a rank is split by a dynamic step. -/
def isDynamic (p : RuleSet) (rank : String) : Bool := (p.split? rank).any (fun s => s.step.isDynamic)

/-- The ranks with a static rule. -/
def staticRanks (p : RuleSet) : List String := p.ranks.filter p.isStatic

/-- The ranks with a dynamic rule. -/
def dynamicRanks (p : RuleSet) : List String := p.ranks.filter p.isDynamic

/-- The ranks between the splits of the rule of a rank. -/
def intermediates (p : RuleSet) (rank : String) : List String := ((p.rule? rank).map Rule.intermediates).getD []

/-- The leader of the step that splits a rank, or the empty text. -/
def leader (p : RuleSet) (rank : String) : String := ((p.split? rank).map (fun s => s.step.leader)).getD ""

/-- The step that splits a rank. -/
def step? (p : RuleSet) (rank : String) : Option Step := (p.split? rank).map Split.step

/-- **The rank from whose rule a rank comes.** -/
def origin? (p : RuleSet) (rank : String) : Option String := (p.rules.find? (fun r => r.produces rank)).map Rule.rank

/-- The two ranks into which a rank is split. -/
def pairOf (p : RuleSet) (rank : String) : Except Problem (List String) :=
  match p.split? rank with
  | none => .error (.notPartitioned rank)
  | some s => .ok s.pair

/-- **The ranks into which a rank is split in the end.** -/
def finalsOf (p : RuleSet) (rank : String) : Except Problem (List String) :=
  match p.split? rank with
  | none => .error (.notPartitioned rank)
  | some s => .ok s.finals

/-- The ranks into which a rank is split in the end; none when it is not split. -/
def finals (p : RuleSet) (rank : String) : List String := ((p.split? rank).map Split.finals).getD []

/-- Whether a rank has a rule or comes from one. -/
def owns (p : RuleSet) (rank : String) : Bool := (p.origin? rank).isSome || (p.rule? rank).isSome

/-- **What is wrong with a rule to be added.** -/
def problem? (p : RuleSet) (r : Rule) : Option Problem :=
  (Identifier.problem? .rank r.rank).or <|
  (if r.steps.isEmpty then some (.noSteps r.rank) else none).or <|
  (if (p.rule? r.rank).isSome then some (.partitionedTwice r.rank) else none).or <|
  ((p.origin? r.rank).map (.alreadyProduced r.rank)).or <|
  r.stepsProblem?.or <|
  (((r.splits.flatMap Split.pair).find? p.owns).map (.derivedCollides r.rank))

/-- **The rules with one more.** -/
def add (p : RuleSet) (r : Rule) : Except Problem RuleSet :=
  match p.problem? r with
  | some e => .error e
  | none => .ok ⟨p.rules ++ [r]⟩

/-- The rules with those of a list, added from left to right. -/
def addAll (p : RuleSet) : List Rule → Except Problem RuleSet
  | [] => .ok p
  | r :: rs =>
    match p.add r with
    | .error e => .error e
    | .ok q => q.addAll rs

end RuleSet
end LoopNest
