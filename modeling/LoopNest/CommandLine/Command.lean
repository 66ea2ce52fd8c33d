import LoopNest.Text.Lowercase
import LoopNest.CommandLine.Flags
/-!
# CommandLine.Command — commands and how they are found

The first argument that is no flag and no value of one names the command.  A name that is none is reported together
with the commands that come close to it.
-/
namespace LoopNest
namespace CommandLine

/-- The name of the program. -/
def programName : String := "fiberflow"

/-- **A command**; the top one is there when none is named. -/
inductive Command where
  | top
  | schedule
  | graph
  | validate
  | completion
  | help
deriving DecidableEq, Repr

namespace Command

/-- The commands that can be named, in the order in which they are proposed. -/
def named : List Command := [schedule, graph, validate, completion, help]

/-- The name of a command. -/
def name : Command → String
  | top => programName
  | schedule => "schedule"
  | graph => "graph"
  | validate => "validate"
  | completion => "completion"
  | help => "help"

/-- The flag that asks for help, which every command has. -/
def helpFlag : Flag := ⟨"help", some 'h', .switch⟩

/-- The flags for what is written, and where. -/
def outputFlags : List Flag := [⟨"output", some 'o', .text⟩, ⟨"format", some 'f', .text⟩]

/-- **The flags of a command.** -/
def flags : Command → List Flag
  | top => [⟨"version", some 'v', .switch⟩, helpFlag]
  | schedule => outputFlags ++ [⟨"verify", none, .switch⟩, ⟨"verify-limit", none, .integer⟩, helpFlag]
  | graph => outputFlags ++ [⟨"stage", none, .text⟩, ⟨"reduce", none, .switch⟩, helpFlag]
  | validate => [⟨"print", none, .text⟩, helpFlag]
  | completion => [helpFlag]
  | help => [helpFlag]

end Command

/-! ### Finding a command -/

/-- Whether an argument is a flag. -/
def isFlag (s : String) : Bool :=
  match s.toList with
  | '-' :: '-' :: _ :: _ => true
  | '-' :: c :: _ => c != '-'
  | _ => false

/-- Whether an argument is taken for a flag whose value is the next one.  Before the command is known all flags
without an equals sign are, except rows of letters. -/
def takesNext (s : String) : Bool :=
  !s.toList.contains '=' &&
    match s.toList with
    | '-' :: '-' :: _ => true
    | '-' :: _ => s.utf8ByteSize == 2
    | _ => false

/-- The arguments that are no flags and no values of flags.  A flag at the end, or one before the last argument, ends
them. -/
def words : List String → List String
  | [] => []
  | s :: rest =>
    if s = "--" then []
    else if takesNext s then if rest.length ≤ 1 then [] else words rest.tail
    else if s = "" ∨ isFlag s then words rest
    else s :: words rest
termination_by args => args.length
decreasing_by all_goals (simp only [List.length_cons, List.length_tail]; omega)

/-- The arguments without the first one that is `word` and no value of a flag. -/
def withoutWord (word : String) : List String → List String
  | [] => []
  | s :: rest =>
    if s = "--" then s :: rest
    else if takesNext s then s :: rest.take 1 ++ withoutWord word rest.tail
    else if s = word ∧ !isFlag s then rest
    else s :: withoutWord word rest
termination_by args => args.length
decreasing_by all_goals (simp only [List.length_cons, List.length_tail]; omega)

/-! ### Proposals -/

/-- The next row of a table of distances: `left` is the entry before, and `above` the row before from the entry before
on. -/
def distanceRow (x : UInt8) : List UInt8 → Nat → List Nat → List Nat
  | y :: ys, left, diagonal :: above :: rest =>
    let d := if x = y then diagonal else min (min left above) diagonal + 1
    d :: distanceRow x ys d (above :: rest)
  | _, _, _ => []

/-- **How many bytes have to be put in, left out or changed** to make one text of another. -/
def distance (a b : List UInt8) : Nat :=
  let below (row : List Nat) (x : UInt8) : List Nat :=
    (row.headD 0 + 1) :: distanceRow x b (row.headD 0 + 1) row
  (a.foldl below (List.range (b.length + 1))).getLastD 0

/-- Whether a name comes close to what was typed. -/
def isClose (typed name : String) : Bool :=
  let typed := Text.lower typed
  decide (distance typed.toUTF8.toList name.toUTF8.toList ≤ 2) || typed.toList.isPrefixOf name.toList

/-- The commands that come close to what was typed. -/
def proposals (typed : String) : List String :=
  ((Command.named.filter (· != .help)).map Command.name).filter (isClose typed)

/-- The lines that propose commands. -/
def proposalText (typed : String) : String :=
  match proposals typed with
  | [] => ""
  | names => "\n\nDid you mean this?\n" ++ String.join (names.map (fun n => "\t" ++ n ++ "\n"))

/-! ### Errors -/

/-- **What is wrong with a command line.** -/
inductive UsageError where
  | unknownCommand (name : String)
  | flag (error : FlagError)
  | argumentCount (wanted given : Nat)
  | badArgument (command : Command) (value : String)
deriving DecidableEq, Repr

/-- What is said about a command line. -/
def UsageError.message : UsageError → String
  | .unknownCommand name =>
    "unknown command " ++ Text.quoted name ++ " for " ++ Text.quoted programName ++ proposalText name
  | .flag e => e.message
  | .argumentCount wanted given =>
    "accepts " ++ Text.decimal wanted ++ " arg(s), received " ++ Text.decimal given
  | .badArgument c value =>
    "invalid argument " ++ Text.quoted value ++ " for " ++ Text.quoted (programName ++ " " ++ c.name)

/-- **The command of a command line**, and the arguments for it. -/
def findCommand (args : List String) : Except UsageError (Command × List String) :=
  match words args with
  | [] => .ok (.top, args)
  | w :: _ =>
    match Command.named.find? (fun c => c.name == w) with
    | some c => .ok (c, withoutWord w args)
    | none => .error (.unknownCommand w)

end CommandLine
end LoopNest
