import LoopNest.Description.Format
import LoopNest.Flow.Plan
/-!
# Watch — who is told what a run does

One watcher may be told about programs that are read, and one about the stages of their compilation.  `Watchers.run`
reads and compiles a program and gives, with its result, what was told to whom.
-/
namespace LoopNest

/-- **Who is told**, by name. -/
structure Watchers where
  load : Option String
  compile : Option String
deriving DecidableEq, Repr

/-- What a watcher is told. -/
inductive Notice where
  /-- A program was read from a path, or was not. -/
  | loaded (path : String) (format : Option Format) (problem : Option Problem)
  /-- A stage of the compilation. -/
  | compiled (event : Event)
deriving DecidableEq, Repr

/-- Why a run gave nothing. -/
inductive RunError where
  | load (problem : Problem)
  | compile (error : CompileError)
deriving DecidableEq, Repr

namespace Watchers

/-- Nobody is told. -/
def none : Watchers := ⟨.none, .none⟩

/-- Sets who is told about programs that are read; nobody in particular changes nothing. -/
def setLoad (w : Watchers) (name : Option String) : Watchers := { w with load := name.or w.load }

/-- Sets who is told about compilations; nobody in particular changes nothing. -/
def setCompile (w : Watchers) (name : Option String) : Watchers := { w with compile := name.or w.compile }

/-- Notices with the name of the one who is told, if there is one. -/
def addressed (name : Option String) (notices : List Notice) : List (String × Notice) :=
  match name with
  | some n => notices.map (fun x => (n, x))
  | .none => []

/-- The problem of a result. -/
def problemOf {α : Type} : Except Problem α → Option Problem
  | .ok _ => .none
  | .error e => some e

/-- **Reads and compiles a program**: what was told to whom, and what came out. -/
def run (w : Watchers) (read : String → Except Problem String) (path : String) :
    List (String × Notice) × Except RunError Outcome :=
  let program := Program.load read path
  let told := addressed w.load [.loaded path (Format.ofPath path).toOption (problemOf program)]
  match program with
  | .error e => (told, .error (.load e))
  | .ok p =>
    let r := p.compile Options.plain
    (told ++ addressed w.compile (r.1.map Notice.compiled), r.2.mapError RunError.compile)

end Watchers
end LoopNest
