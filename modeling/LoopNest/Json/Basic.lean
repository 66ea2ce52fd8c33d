import LoopNest.Text.Numeral
/-!
# Json.Basic — values, and how they are written

A `Json` value keeps numbers as the literals they were written with and objects as lists of members, so repeated
names and their order are not lost.  `compact` writes a value without blanks, `indented` over several lines.
-/
namespace LoopNest

/-- **A value of the data format.** -/
inductive Json where
  | null
  | bool (b : Bool)
  | number (literal : List Char)
  | string (s : String)
  | array (items : List Json)
  | object (members : List (String × Json))

namespace Json

/-- A whole number. -/
def int (i : Int) : Json := .number (Text.signedDigits i)

/-- **How a character is written inside a text.**  Beside quotes, backslashes and control characters, the characters
that mean something to a markup reader and the two separators of lines and paragraphs are written by their code. -/
def escapedChar (c : Char) : List Char :=
  if c = '"' then ['\\', '"']
  else if c = '\\' then ['\\', '\\']
  else if c = '\x08' then ['\\', 'b']
  else if c = '\x0c' then ['\\', 'f']
  else if c = '\n' then ['\\', 'n']
  else if c = '\r' then ['\\', 'r']
  else if c = '\t' then ['\\', 't']
  else if c.toNat < 0x20 ∨ c = '<' ∨ c = '>' ∨ c = '&' ∨ c = '\u2028' ∨ c = '\u2029' then
    '\\' :: 'u' :: Text.hexDigits 4 c.toNat
  else [c]

/-- A text between its quotes. -/
def quotedText (s : String) : List Char := '"' :: s.toList.flatMap escapedChar ++ ['"']

mutual

/-- **A value without blanks.** -/
def compact : Json → List Char
  | .null => ['n', 'u', 'l', 'l']
  | .bool true => ['t', 'r', 'u', 'e']
  | .bool false => ['f', 'a', 'l', 's', 'e']
  | .number l => l
  | .string s => quotedText s
  | .array items => '[' :: compactItems items ++ [']']
  | .object members => '{' :: compactMembers members ++ ['}']

/-- Items with commas between them. -/
def compactItems : List Json → List Char
  | [] => []
  | [v] => compact v
  | v :: w :: rest => compact v ++ ',' :: compactItems (w :: rest)

/-- Members with commas between them. -/
def compactMembers : List (String × Json) → List Char
  | [] => []
  | [(k, v)] => quotedText k ++ ':' :: compact v
  | (k, v) :: m :: rest => quotedText k ++ ':' :: compact v ++ ',' :: compactMembers (m :: rest)

end

/-- A line break and two blanks for each of `depth` levels. -/
def newLine (depth : Nat) : List Char := '\n' :: List.replicate (2 * depth) ' '

mutual

/-- **A value over several lines**: every item and every member on a line of its own, two blanks deeper than what
holds it.  An empty list or object stays on its line. -/
def indented (depth : Nat) : Json → List Char
  | .null => ['n', 'u', 'l', 'l']
  | .bool true => ['t', 'r', 'u', 'e']
  | .bool false => ['f', 'a', 'l', 's', 'e']
  | .number l => l
  | .string s => quotedText s
  | .array [] => ['[', ']']
  | .array (v :: rest) => '[' :: newLine (depth + 1) ++ indentedItems (depth + 1) (v :: rest) ++ newLine depth ++ [']']
  | .object [] => ['{', '}']
  | .object (m :: rest) =>
    '{' :: newLine (depth + 1) ++ indentedMembers (depth + 1) (m :: rest) ++ newLine depth ++ ['}']

/-- Items, each on its line. -/
def indentedItems (depth : Nat) : List Json → List Char
  | [] => []
  | [v] => indented depth v
  | v :: w :: rest => indented depth v ++ ',' :: newLine depth ++ indentedItems depth (w :: rest)

/-- Members, each on its line. -/
def indentedMembers (depth : Nat) : List (String × Json) → List Char
  | [] => []
  | [(k, v)] => quotedText k ++ ':' :: ' ' :: indented depth v
  | (k, v) :: m :: rest =>
    quotedText k ++ ':' :: ' ' :: indented depth v ++ ',' :: newLine depth ++ indentedMembers depth (m :: rest)

end

/-- **A value as a document of its own**: over several lines, and a line break at the end. -/
def document (v : Json) : String := String.ofList (indented 0 v ++ ['\n'])

end Json
end LoopNest
