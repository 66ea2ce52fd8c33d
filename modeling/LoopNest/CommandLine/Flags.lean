import LoopNest.Text.Quoted
/-!
# CommandLine.Flags — flags among arguments

A flag has a name after two dashes, and may have a letter after one.  Its value follows after an equals sign, as the
next argument, or right after its letter; a switch needs none.  Two dashes alone end the flags.
-/
namespace LoopNest
namespace CommandLine

/-- What the value of a flag is. -/
inductive FlagKind where
  | text
  | integer
  | switch
deriving DecidableEq, Repr

/-- **A flag.** -/
structure Flag where
  name : String
  letter : Option Char
  kind : FlagKind
deriving DecidableEq, Repr

/-- A value of a flag. -/
inductive FlagValue where
  | text (s : String)
  | integer (i : Int)
  | switch (b : Bool)
deriving DecidableEq, Repr

/-- What is wrong with flags. -/
inductive FlagError where
  | badSyntax (argument : String)
  | unknown (name : String)
  | unknownLetter (letter : Char) (letters : String)
  | missingValue (name : String)
  | missingLetterValue (letter : Char) (letters : String)
  | badSwitch (flag : Flag) (value : String)
  | badInteger (flag : Flag) (value : String) (cause : Text.NumeralError)
deriving DecidableEq, Repr

namespace Flag

/-- A flag as messages show it. -/
def shown (f : Flag) : String :=
  match f.letter with
  | some c => "-" ++ String.singleton c ++ ", --" ++ f.name
  | none => "--" ++ f.name

end Flag

namespace FlagError

/-- What is said about a value that a flag does not take. -/
def badValueText (f : Flag) (value reader cause : String) : String :=
  "invalid argument " ++ Text.quoted value ++ " for " ++ Text.quoted f.shown ++ " flag: " ++ reader ++ ": parsing " ++
    Text.quoted value ++ ": " ++ cause

/-- What is wrong with a numeral. -/
def numeralText : Text.NumeralError → String
  | .malformed => "invalid syntax"
  | .outOfRange => "value out of range"

/-- **What is said about flags.** -/
def message : FlagError → String
  | .badSyntax argument => "bad flag syntax: " ++ argument
  | .unknown name => "unknown flag: --" ++ name
  | .unknownLetter c letters => "unknown shorthand flag: " ++ Text.quotedMark c ++ " in -" ++ letters
  | .missingValue name => "flag needs an argument: --" ++ name
  | .missingLetterValue c letters => "flag needs an argument: " ++ Text.quotedMark c ++ " in -" ++ letters
  | .badSwitch f value => badValueText f value "strconv.ParseBool" "invalid syntax"
  | .badInteger f value cause => badValueText f value "strconv.ParseInt" (numeralText cause)

end FlagError

/-- The truth value that a word names. -/
def truthOf? (s : String) : Option Bool :=
  if s ∈ ["1", "t", "T", "TRUE", "true", "True"] then some true
  else if s ∈ ["0", "f", "F", "FALSE", "false", "False"] then some false
  else none

/-- Flags that were given, with their values; the newest comes first. -/
abbrev Settings := List (String × FlagValue)

/-- Reads the value of a flag. -/
def Flag.set (f : Flag) (value : String) : Except FlagError (String × FlagValue) :=
  match f.kind with
  | .text => .ok (f.name, .text value)
  | .switch =>
    match truthOf? value with
    | some b => .ok (f.name, .switch b)
    | none => .error (.badSwitch f value)
  | .integer =>
    match Text.readSigned value.toList with
    | .ok i => .ok (f.name, .integer i)
    | .error e => .error (.badInteger f value e)

/-- What one argument sets, newest first, and whether it takes the next argument with it. -/
abbrev Taken := Except FlagError (Settings × Bool)

/-- Sets one flag. -/
def Flag.take (f : Flag) (value : String) (withNext : Bool) : Taken := (f.set value).map (fun s => ([s], withNext))

/-- Reads an argument after two dashes. -/
def readLong (flags : List Flag) (body : List Char) (next : Option String) : Taken :=
  let name := body.takeWhile (· != '=')
  if name.isEmpty || name.head? = some '-' then .error (.badSyntax (String.ofList ('-' :: '-' :: body)))
  else
    match flags.find? (fun f => f.name.toList == name) with
    | none => .error (.unknown (String.ofList name))
    | some f =>
      match body.dropWhile (· != '='), f.kind, next with
      | _ :: value, _, _ => f.take (String.ofList value) false
      | [], .switch, _ => f.take "true" false
      | [], _, some value => f.take value true
      | [], _, none => .error (.missingValue f.name)

/-- The character that stands for a letter in messages: outside of the basic letters one for all. -/
def shownLetter (c : Char) : Char := if c.toNat < 0x80 then c else Char.ofNat 0xC3

/-- The start of letters that belong to a test runner. -/
def testLetters : List Char := ['t', 'e', 's', 't', '.']

/-- Reads the letters after one dash.  Letters of a test runner are passed over. -/
def readLetters (flags : List Flag) (next : Option String) : List Char → Settings → Taken
  | [], settings => .ok (settings, false)
  | c :: more, settings =>
    if testLetters.isPrefixOf (c :: more) then .ok (settings, false)
    else
      match flags.find? (fun f => f.letter == some c) with
      | none => .error (.unknownLetter (shownLetter c) (String.ofList (c :: more)))
      | some f =>
        let last (value : String) (withNext : Bool) : Taken :=
          (f.set value).map (fun s => (s :: settings, withNext))
        match more, f.kind, next with
        | '=' :: v :: value, _, _ => last (String.ofList (v :: value)) false
        | _, .switch, _ =>
          match f.set "true" with
          | .error e => .error e
          | .ok s => readLetters flags next more (s :: settings)
        | v :: value, _, _ => last (String.ofList (v :: value)) false
        | [], _, some value => last value true
        | [], _, none => .error (.missingLetterValue c (String.ofList [c]))

/-- **Reads arguments**: the flags set, newest first, and the other arguments in order. -/
def readArguments (flags : List Flag) : Settings → List String → Except FlagError (Settings × List String)
  | settings, [] => .ok (settings, [])
  | settings, s :: rest =>
    let go (taken : Taken) : Except FlagError (Settings × List String) :=
      match taken with
      | .error e => .error e
      | .ok (more, true) => readArguments flags (more ++ settings) rest.tail
      | .ok (more, false) => readArguments flags (more ++ settings) rest
    match s.toList with
    | ['-', '-'] => .ok (settings, rest)
    | '-' :: '-' :: body => go (readLong flags body rest.head?)
    | '-' :: c :: letters => go (readLetters flags rest.head? (c :: letters) [])
    | _ => (readArguments flags settings rest).map (fun r => (r.1, s :: r.2))
termination_by _ args => args.length
decreasing_by all_goals (simp only [List.length_cons, List.length_tail]; omega)

namespace Settings

/-- The text that a flag was set to, or `fallback`. -/
def text (settings : Settings) (name fallback : String) : String :=
  match settings.lookup name with
  | some (.text s) => s
  | _ => fallback

/-- The integer that a flag was set to, or `fallback`. -/
def integer (settings : Settings) (name : String) (fallback : Int) : Int :=
  match settings.lookup name with
  | some (.integer i) => i
  | _ => fallback

/-- Whether a switch was set. -/
def switch (settings : Settings) (name : String) : Bool :=
  match settings.lookup name with
  | some (.switch b) => b
  | _ => false

end Settings
end CommandLine
end LoopNest
