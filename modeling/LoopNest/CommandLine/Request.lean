import LoopNest.Description.Format
import LoopNest.CommandLine.Command
import LoopNest.CommandLine.Listing
/-!
# CommandLine.Request — what a command line asks for

`requestOf` turns arguments into a `Request`, in which every choice is made, or says what is wrong with them.  Flags
are looked at first, then the number of arguments, then the values of flags.
-/
namespace LoopNest
namespace CommandLine

/-- **What a command line asks for.**  Without an output file the output is printed. -/
inductive Request where
  | help (c : Command)
  | version
  | completion (shell : String)
  | schedule (output : Option String) (form : Form) (verify : Bool) (verifyLimit : Int) (path : String)
  | graph (output : Option String) (form : Form) (stage : Stage) (reduce : Bool) (path : String)
  | validate (print : Option Format) (path : String)
deriving DecidableEq, Repr

/-- **Why a command failed.** -/
inductive Failure where
  | usage (error : UsageError)
  | problem (problem : Problem)
  | compile (error : CompileError)
deriving DecidableEq, Repr

/-- What is said about a failure. -/
def Failure.message : Failure → String
  | .usage e => e.message
  | .problem p => p.fault.text
  | .compile e => e.fault.text

/-- The only argument of a command. -/
def oneArgument (args : List String) : Except Failure String :=
  match args with
  | [a] => .ok a
  | _ => .error (.usage (.argumentCount 1 args.length))

/-- The choice that the value of a flag names. -/
def choose {α : Type} (flag : String) (choices : List (String × α)) (value : String) : Except Failure α :=
  match choices.lookup value with
  | some a => .ok a
  | none => .error (.problem (.badFlag flag value (choices.map Prod.fst)))

/-- The forms by name. -/
def forms : List (String × Form) := [("text", .text), ("json", .json)]

/-- The stages by name. -/
def stages : List (String × Stage) := [("raw", .raw), ("pruned", .pruned)]

/-- The shells for which completion is offered. -/
def shells : List String := ["bash", "zsh", "fish", "powershell"]

/-- A text that may be left empty. -/
def optional (s : String) : Option String := if s = "" then none else some s

/-- What a command asks for with these flags and arguments. -/
def requestWith (c : Command) (settings : Settings) (args : List String) : Except Failure Request :=
  match c with
  | .top => .ok (if settings.switch "version" then .version else .help .top)
  | .help => .ok (.help ((Command.named.find? (fun c => some c.name == args.head?)).getD .top))
  | .completion => do
    let shell ← oneArgument args
    if shell ∈ shells then .ok (.completion shell) else .error (.usage (.badArgument .completion shell))
  | .schedule => do
    let path ← oneArgument args
    let form ← choose "format" forms (settings.text "format" "text")
    .ok (.schedule (optional (settings.text "output" "")) form (settings.switch "verify")
      (settings.integer "verify-limit" Options.defaultLimit) path)
  | .graph => do
    let path ← oneArgument args
    let form ← choose "format" forms (settings.text "format" "text")
    let stage ← choose "stage" stages (settings.text "stage" "pruned")
    .ok (.graph (optional (settings.text "output" "")) form stage (settings.switch "reduce") path)
  | .validate => do
    let path ← oneArgument args
    match optional (settings.text "print" "") with
    | none => .ok (.validate none path)
    | some name => do
      let format ← choose "print" (Format.all.map (fun f => (f.name, f))) name
      .ok (.validate (some format) path)

/-- **What arguments ask for.**  Help comes before everything but faults in flags. -/
def requestOf (args : List String) : Except Failure Request :=
  match findCommand args with
  | .error e => .error (.usage e)
  | .ok (c, rest) =>
    match readArguments c.flags [] rest with
    | .error e => .error (.usage (.flag e))
    | .ok (settings, args) =>
      if settings.switch "help" then .ok (.help c) else requestWith c settings args

end CommandLine
end LoopNest
