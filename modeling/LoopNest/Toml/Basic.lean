import LoopNest.Text.Numeral
/-!
# Toml.Basic — statements of a table file, and how keys and texts are written

A file is a list of `Statement`s: headers of tables, headers of elements of lists of tables, and assignments.
-/
namespace LoopNest
namespace Toml

/-- A path of keys. -/
abbrev Path := List String

/-- **What stands on the right of an assignment.**  Of decimals and moments only the literal is kept. -/
inductive Expr where
  | text (s : String)
  | integer (i : Int)
  | boolean (b : Bool)
  | decimal (literal : List Char)
  | moment (literal : List Char)
  | array (items : List Expr)
  | inline (entries : List (Path × Expr))

/-- **A statement of a file.** -/
inductive Statement where
  /-- The header of a table. -/
  | table (path : Path)
  /-- The header of one more element of a list of tables. -/
  | element (path : Path)
  /-- A key and its value. -/
  | assign (path : Path) (value : Expr)

/-- Whether a character may stand in a key without quotes. -/
def isBare (c : Char) : Bool :=
  decide (('a' ≤ c ∧ c ≤ 'z') ∨ ('A' ≤ c ∧ c ≤ 'Z') ∨ ('0' ≤ c ∧ c ≤ '9') ∨ c = '_' ∨ c = '-')

/-- How a character is written between double quotes. -/
def escapedChar (c : Char) : List Char :=
  if c = '"' then ['\\', '"']
  else if c = '\\' then ['\\', '\\']
  else if c = '\x08' then ['\\', 'b']
  else if c = '\t' then ['\\', 't']
  else if c = '\n' then ['\\', 'n']
  else if c = '\x0c' then ['\\', 'f']
  else if c = '\r' then ['\\', 'r']
  else if c.toNat < 0x20 ∨ c.toNat = 0x7f then '\\' :: 'u' :: Text.hexDigits 4 c.toNat
  else [c]

/-- **A text between double quotes.** -/
def quotedText (s : String) : List Char := '"' :: s.toList.flatMap escapedChar ++ ['"']

/-- One key, between quotes if it has to be. -/
def keyText (k : String) : String :=
  if k ≠ "" ∧ k.toList.all isBare then k else String.ofList (quotedText k)

/-- A path with points between its keys. -/
def pathText : Path → String
  | [] => ""
  | [k] => keyText k
  | k :: l :: rest => keyText k ++ "." ++ pathText (l :: rest)

end Toml
end LoopNest
