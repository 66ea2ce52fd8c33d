import LoopNest.CommandLine.Run
/-!
# Main — the program

The only part with effects: it reads the file that a request names, writes and prints what the report says, and gives
an exit code.
-/
namespace LoopNest
namespace CommandLine

/-- The file that a request reads. -/
def Request.path? : Request → Option String
  | .schedule _ _ _ _ path | .graph _ _ _ _ path | .validate _ path => some path
  | .help _ | .version | .completion _ => none

/-- What a file holds. -/
def readSource (path : String) : IO (Except Problem String) :=
  try
    return .ok (← IO.FS.readFile path)
  catch
    | .noFileOrDirectory _ _ _ => return .error (.noFile path)
    | _ => return .error (.readFailed path)

/-- A name for a run: thirty-two digits in groups, of which two tell that it was chosen at random. -/
def runName (n : Nat) : String :=
  let digits := Text.hexDigits 32 n
  let group (start width : Nat) : String := String.ofList ((digits.drop start).take width)
  Text.joined "-" [group 0 8, group 8 4, "4" ++ group 13 3, "8" ++ group 17 3, group 20 12]

/-- Says why a command failed. -/
def reportFailure (f : Failure) : IO UInt32 := do
  IO.eprintln ("Error: " ++ f.message)
  return 1

/-- Carries out a report. -/
def Report.perform (r : Report) : IO UInt32 := do
  IO.print r.printed
  match r.failure, r.file with
  | some f, _ => reportFailure f
  | none, none => return 0
  | none, some (path, text) =>
    try
      IO.FS.writeFile path text
      IO.print r.confirmation
      return 0
    catch _ => reportFailure (.problem (.writeFailed path))

end CommandLine
end LoopNest

open LoopNest LoopNest.CommandLine in
/-- **The program.** -/
def main (args : List String) : IO UInt32 := do
  match requestOf args with
  | .error f => reportFailure f
  | .ok request =>
    let source ← match request.path? with
      | some path => readSource path
      | none => pure (.ok "")
    let run ← IO.rand 0 (Nat.pow 2 128 - 1)
    (request.report (runName run) (fun _ => source)).perform
