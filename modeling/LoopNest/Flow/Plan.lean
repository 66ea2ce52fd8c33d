import LoopNest.Flow.Wiring
import LoopNest.Flow.Schedule
/-!
# Flow.Plan — from a program to the order of its operations

`Program.plan` builds the graph of a program, prunes and schedules it.  `compile` does the same under options: it can
keep the graph as built, check the schedule against exhaustive search, be interrupted, and tells what happens.
-/
namespace LoopNest

/-- **A compiled program**: its pruned graph, the order of its operations, and how many nodes were pruned. -/
structure Plan where
  graph : Graph Node
  order : List Node
  removed : Nat

/-- Why a program was not compiled, by stage. -/
inductive CompileError where
  | canceled
  | build (problem : Problem)
  | schedule (problem : Problem)
  | verify (problem : Problem)
deriving DecidableEq, Repr

namespace CompileError

/-- What is said when a run is interrupted. -/
def canceledText : String := "context canceled"

/-- The error as a chain. -/
def fault : CompileError → Fault
  | .canceled => .plain canceledText
  | .build p => .within "build" p.fault
  | .schedule p => .within "schedule" p.fault
  | .verify p => .within "verify" p.fault

end CompileError

/-- **Compiles a program.** -/
def Program.plan (p : Program) : Except CompileError Plan :=
  match p.graph with
  | .error e => .error (.build e)
  | .ok raw =>
    let pruned := Flow.prune raw
    match Flow.schedule pruned.2 with
    | .error e => .error (.schedule e)
    | .ok order => .ok ⟨pruned.2, order, pruned.1⟩

/-- When a run is interrupted. -/
inductive Interrupt where
  | never
  | atStart
  | afterBuild
deriving DecidableEq, Repr

/-- The options of a run. -/
structure Options where
  /-- Keep the graph as built. -/
  keepRaw : Bool
  /-- Check the schedule against exhaustive search. -/
  verify : Bool
  /-- The greatest graph that is searched exhaustively. -/
  verifyLimit : Int
  /-- When the run is interrupted. -/
  interrupt : Interrupt
deriving DecidableEq, Repr

namespace Options

/-- The greatest graph that is searched when no positive limit is given. -/
def defaultLimit : Nat := 16

/-- The limit in force. -/
def limit (o : Options) : Int := if o.verifyLimit ≤ 0 then defaultLimit else o.verifyLimit

/-- The plain run. -/
def plain : Options := ⟨false, false, 0, .never⟩

end Options

/-- What a run tells while it goes on. -/
inductive Event where
  | buildStarted (tensors : Nat)
  | buildEnded (nodes edges : Nat) (problem : Option Problem)
  | pruned (removed remaining : Nat)
  | scheduled (length : Nat) (problem : Option Problem)
deriving DecidableEq, Repr

/-- **What a run gives.** -/
structure Outcome where
  raw : Option (Graph Node)
  rawNodes : Nat
  rawEdges : Nat
  graph : Graph Node
  order : List Node
  removed : Nat
  verified : Bool

/-- The first index at which two lists differ, and what stands there. -/
def firstDifference? {α : Type} [DecidableEq α] (i : Nat) : List α → List α → Option (Nat × α × α)
  | a :: as, b :: bs => if a = b then firstDifference? (i + 1) as bs else some (i, a, b)
  | _, _ => none

/-- **Checks a schedule** and, in graphs of at most `limit` nodes, compares it with the one that exhaustive search
finds.  Says whether that was done. -/
def verifySchedule (g : Graph Node) (order : List Node) (limit : Int) : Except Problem Bool :=
  match Flow.scheduleProblem? g order with
  | some e => .error e
  | none =>
    if limit < (g.nodeCount : Int) then .ok false
    else
      match Flow.scheduleExhaustive g with
      | .error e => .error e
      | .ok want =>
        match firstDifference? 0 order want with
        | some (i, found, wanted) => .error (.differs i found wanted)
        | none => .ok true

/-- **Runs the compiler**: what it told, and what it gave. -/
def Program.compile (p : Program) (o : Options) : List Event × Except CompileError Outcome :=
  if o.interrupt = .atStart then ([], .error .canceled)
  else
    let started := Event.buildStarted p.tensors.length
    match p.graph with
    | .error e => ([started, .buildEnded 0 0 (some e)], .error (.build e))
    | .ok raw =>
      let built := [started, .buildEnded raw.nodeCount raw.edgeCount none]
      if o.interrupt = .afterBuild then (built, .error .canceled)
      else
        let pruned := Flow.prune raw
        let told := built ++ [.pruned pruned.1 pruned.2.nodeCount]
        match Flow.schedule pruned.2 with
        | .error e => (told ++ [.scheduled 0 (some e)], .error (.schedule e))
        | .ok order =>
          let outcome (verified : Bool) : Outcome :=
            { raw := if o.keepRaw then some raw.clone else none
              rawNodes := raw.nodeCount
              rawEdges := raw.edgeCount
              graph := pruned.2
              order := order
              removed := pruned.1
              verified := verified }
          (told ++ [.scheduled order.length none],
            if o.verify then
              match verifySchedule pruned.2 order o.limit with
              | .error e => .error (.verify e)
              | .ok verified => .ok (outcome verified)
            else .ok (outcome false))

end LoopNest
