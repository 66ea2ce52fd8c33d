import LoopNest.Files
import LoopNest.CommandLine.Request
/-!
# CommandLine.Run — what a command does

A `Report` says what a request prints, which file it writes and why it failed.  `run` carries out a whole command line
on a tree of files.
-/
namespace LoopNest
namespace CommandLine

/-- **What becomes of a request.**  If a file is written, `confirmation` is printed after that. -/
structure Report where
  printed : String
  file : Option (String × String)
  confirmation : String
  failure : Option Failure

namespace Report

/-- A report that only prints. -/
def print (s : String) : Report := ⟨s, none, "", none⟩

/-- A report of a failure. -/
def fail (f : Failure) : Report := ⟨"", none, "", some f⟩

/-- A report that writes a file, or prints when there is none; `done` says what was written. -/
def emit (output : Option String) (toFile toScreen done : String) : Report :=
  match output with
  | none => print toScreen
  | some path => ⟨"", some (path, toFile), "✓ " ++ done ++ "\n  → " ++ path ++ "\n", none⟩

end Report

/-- The version of the program. -/
def version : String := "dev"

/-- The state of the sources that the program was built from. -/
def commit : String := "none"

/-- When the program was built. -/
def built : String := "unknown"

/-- The lines below the version. -/
def buildLines : String := "commit: " ++ commit ++ "\nbuilt: " ++ built

/-- **What the program says about itself.** -/
def buildText : String := "version: " ++ version ++ "\n" ++ buildLines

/-- The answer to the question for the version, for a program with a name. -/
def versionText (name : String) : String := name ++ " version " ++ version ++ "\n" ++ buildLines ++ "\n"

/-- A flag on a page of help. -/
def helpLine (f : Flag) : String := "  " ++ f.shown ++ "\n"

/-- A page of help. -/
def helpText (c : Command) : String :=
  let usage := match c with
    | .top => programName ++ " [command]"
    | c => programName ++ " " ++ c.name ++ " [argument] [flags]"
  let commands := match c with
    | .top => "\nCommands:\n" ++ String.join (Command.named.map (fun c => "  " ++ c.name ++ "\n"))
    | _ => ""
  "Usage:\n  " ++ usage ++ "\n" ++ commands ++ "\nFlags:\n" ++ String.join (c.flags.map helpLine)

/-- Reads a program and compiles it. -/
def compiled (read : String → Except Problem String) (path : String) (o : Options) : Except Failure Outcome :=
  match Program.load read path with
  | .error e => .error (.problem e)
  | .ok p => (p.compile o).2.mapError Failure.compile

/-- The graph of an outcome that is listed. -/
def listedGraph (stage : Stage) (reduce : Bool) (o : Outcome) : Graph Node :=
  let g := match stage with
    | .raw => o.raw.getD o.graph
    | .pruned => o.graph
  if reduce then g.clone.reduce.2 else g

/-- **What becomes of a request**; `read` gives what files hold, and `run` names this run. -/
def Request.report (run : String) (read : String → Except Problem String) : Request → Report
  | .help c => .print (helpText c)
  | .version => .print (versionText programName)
  | .completion _ => .print ""
  | .schedule output form verify limit path =>
    match compiled read path ⟨false, verify, limit, .never⟩ with
    | .error e => .fail e
    | .ok o =>
      let text := match form with
        | .text => scheduleText o.order
        | .json => (scheduleJson run path o).document
      .emit output text text ("Scheduled " ++ Text.decimal o.order.length ++ " operations")
  | .graph output form stage reduce path =>
    match compiled read path { Options.plain with keepRaw := decide (stage = .raw) } with
    | .error e => .fail e
    | .ok o =>
      let g := listedGraph stage reduce o
      let done := "Wrote " ++ stage.name ++ " graph"
      match form with
      | .text => .emit output (graphText g) (graphText g ++ statistics g) done
      | .json => .emit output (graphJson stage g).document (graphJson stage g).document done
  | .validate print path =>
    match Program.load read path with
    | .error e => ⟨"✗ " ++ path ++ "\n", none, "", some (.problem e)⟩
    | .ok p =>
      match print with
      | some format => .print ((Description.ofProgram p).encode format)
      | none => .print ("✓ " ++ path ++ " is valid\n" ++ summary p)

/-- **Carries out a command line** on files: what is printed, the files afterwards, and why it failed. -/
def run (run : String) (files : Files) (args : List String) : String × Files × Option Failure :=
  match requestOf args with
  | .error f => ("", files, some f)
  | .ok request =>
    let r := request.report run files.read
    match r.file with
    | none => (r.printed, files, r.failure)
    | some (path, text) =>
      match files.write path text with
      | .ok changed => (r.printed ++ r.confirmation, changed, r.failure)
      | .error e => (r.printed, files, some (.problem e))

end CommandLine
end LoopNest
