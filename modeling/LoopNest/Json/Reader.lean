import LoopNest.Json.Basic
/-!
# Json.Reader — values from text

`Json.read?` reads one value from the front of a text and gives what is left of it.  Blanks may stand before any
token.  Lists and objects nest at most `depthLimit` deep.
-/
namespace LoopNest
namespace Json

/-- How deep lists and objects may nest. -/
def depthLimit : Nat := 10000

/-- Whether a character may stand between tokens. -/
def isBlank (c : Char) : Bool := c == ' ' || c == '\t' || c == '\n' || c == '\r'

/-- What follows the blanks at the front of a text. -/
def skipBlanks (cs : List Char) : List Char := cs.dropWhile isBlank

/-- The character for one unit of an escape that is not half of a pair; halves of pairs become the replacement
character. -/
def unitChar (u : Nat) : Char := if 0xD800 ≤ u ∧ u < 0xE000 then '\ufffd' else Char.ofNat u

/-- The character of the pair of escapes that starts with the unit `high` and goes on in `cs`. -/
def pairedChar? (high : Nat) (cs : List Char) : Option Char :=
  match cs with
  | '\\' :: 'u' :: a :: b :: c :: d :: _ =>
    match Text.hexNumber? [a, b, c, d] with
    | some low =>
      if 0xD800 ≤ high ∧ high < 0xDC00 ∧ 0xDC00 ≤ low ∧ low < 0xE000 then
        some (Char.ofNat (0x10000 + (high - 0xD800) * 0x400 + (low - 0xDC00)))
      else none
    | none => none
  | _ => none

/-- The character that a backslash and a letter stand for. -/
def escapeOf? (c : Char) : Option Char :=
  if c = '"' ∨ c = '\\' ∨ c = '/' then some c
  else if c = 'b' then some '\x08'
  else if c = 'f' then some '\x0c'
  else if c = 'n' then some '\n'
  else if c = 'r' then some '\r'
  else if c = 't' then some '\t'
  else none

/-- **Reads a text** whose opening quote has been read, up to and with its closing quote. -/
def readText (cs : List Char) : Option (List Char × List Char) :=
  match cs with
  | [] => none
  | '"' :: rest => some ([], rest)
  | '\\' :: 'u' :: a :: b :: c :: d :: rest =>
    match Text.hexNumber? [a, b, c, d] with
    | none => none
    | some u =>
      match pairedChar? u rest with
      | some p => (readText (rest.drop 6)).map (fun r => (p :: r.1, r.2))
      | none => (readText rest).map (fun r => (unitChar u :: r.1, r.2))
  | '\\' :: e :: rest =>
    match escapeOf? e with
    | none => none
    | some c => (readText rest).map (fun r => (c :: r.1, r.2))
  | c :: rest => if c.toNat < 0x20 ∨ c = '\\' then none else (readText rest).map (fun r => (c :: r.1, r.2))
termination_by cs.length
decreasing_by all_goals (simp only [List.length_cons, List.length_drop]; omega)

/-- The digits at the front of a text, at least one of them. -/
def readSomeDigits (cs : List Char) : Option (List Char × List Char) :=
  match cs.takeWhile Text.isDecimalDigit with
  | [] => none
  | d :: ds => some (d :: ds, cs.dropWhile Text.isDecimalDigit)

/-- The whole part of a number: a zero alone, or digits that do not start with one. -/
def readWhole : List Char → Option (List Char × List Char)
  | '0' :: rest => some (['0'], rest)
  | cs => readSomeDigits cs

/-- The fraction of a number, if a point says that there is one. -/
def readFraction : List Char → Option (List Char × List Char)
  | '.' :: rest => (readSomeDigits rest).map (fun r => ('.' :: r.1, r.2))
  | cs => some ([], cs)

/-- The exponent of a number, if a letter says that there is one. -/
def readExponent : List Char → Option (List Char × List Char)
  | 'e' :: rest => (readPower rest).map (fun r => ('e' :: r.1, r.2))
  | 'E' :: rest => (readPower rest).map (fun r => ('E' :: r.1, r.2))
  | cs => some ([], cs)
where
  /-- Digits after an optional sign. -/
  readPower : List Char → Option (List Char × List Char)
    | '+' :: rest => (readSomeDigits rest).map (fun r => ('+' :: r.1, r.2))
    | '-' :: rest => (readSomeDigits rest).map (fun r => ('-' :: r.1, r.2))
    | cs => readSomeDigits cs

/-- A number without its sign. -/
def readMagnitude (cs : List Char) : Option (List Char × List Char) :=
  (readWhole cs).bind fun w => (readFraction w.2).bind fun f => (readExponent f.2).map fun e =>
    (w.1 ++ f.1 ++ e.1, e.2)

/-- **Reads the literal of a number.** -/
def readNumber : List Char → Option (List Char × List Char)
  | '-' :: rest => (readMagnitude rest).map (fun r => ('-' :: r.1, r.2))
  | cs => readMagnitude cs

mutual

/-- Reads a value; `room` is how much deeper it may nest. -/
def readValue : Nat → Nat → List Char → Option (Json × List Char)
  | 0, _, _ => none
  | fuel + 1, room, cs =>
    match skipBlanks cs with
    | 'n' :: 'u' :: 'l' :: 'l' :: rest => some (.null, rest)
    | 't' :: 'r' :: 'u' :: 'e' :: rest => some (.bool true, rest)
    | 'f' :: 'a' :: 'l' :: 's' :: 'e' :: rest => some (.bool false, rest)
    | '"' :: rest => (readText rest).map (fun r => (.string (String.ofList r.1), r.2))
    | '[' :: rest =>
      if room = 0 then none
      else
        match skipBlanks rest with
        | ']' :: rest' => some (.array [], rest')
        | rest' => (readItems fuel (room - 1) rest').map (fun r => (.array r.1, r.2))
    | '{' :: rest =>
      if room = 0 then none
      else
        match skipBlanks rest with
        | '}' :: rest' => some (.object [], rest')
        | rest' => (readMembers fuel (room - 1) rest').map (fun r => (.object r.1, r.2))
    | rest => (readNumber rest).map (fun r => (.number r.1, r.2))

/-- Reads items up to and with the bracket that closes them. -/
def readItems : Nat → Nat → List Char → Option (List Json × List Char)
  | 0, _, _ => none
  | fuel + 1, room, cs =>
    match readValue fuel room cs with
    | none => none
    | some (v, rest) =>
      match skipBlanks rest with
      | ',' :: rest' => (readItems fuel room rest').map (fun r => (v :: r.1, r.2))
      | ']' :: rest' => some ([v], rest')
      | _ => none

/-- Reads members up to and with the brace that closes them. -/
def readMembers : Nat → Nat → List Char → Option (List (String × Json) × List Char)
  | 0, _, _ => none
  | fuel + 1, room, cs =>
    match skipBlanks cs with
    | '"' :: rest =>
      match readText rest with
      | none => none
      | some (k, rest) =>
        match skipBlanks rest with
        | ':' :: rest =>
          match readValue fuel room rest with
          | none => none
          | some (v, rest) =>
            match skipBlanks rest with
            | ',' :: rest' => (readMembers fuel room rest').map (fun r => ((String.ofList k, v) :: r.1, r.2))
            | '}' :: rest' => some ([(String.ofList k, v)], rest')
            | _ => none
        | _ => none
    | _ => none

end

/-- **Reads one value from the front of a text**, and gives what is left. -/
def read? (cs : List Char) : Option (Json × List Char) := readValue (2 * cs.length + 2) depthLimit cs

/-- Reads a text that holds one value and nothing else. -/
def ofText? (s : String) : Option Json :=
  match read? s.toList with
  | some (v, rest) => if (skipBlanks rest).isEmpty then some v else none
  | none => none

/-- The letter that stands for all letters that differ from it by case only, as far as names of fields need it: the
small Latin letters, and the two other characters whose lower or upper case is one of them. -/
def foldedChar (c : Char) : Char :=
  if c = '\u017f' then 's' else if c = '\u212a' then 'k' else c.toLower

/-- Whether two names are the same but for the case of their letters. -/
def sameName (a b : String) : Bool := a.toList.map foldedChar == b.toList.map foldedChar

end Json
end LoopNest
