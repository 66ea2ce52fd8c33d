import LoopNest.Text.Numeral
import LoopNest.Text.Printable
/-!
# Text.Quoted — texts between quotes, and lists between brackets

`quoted` shows a text between double quotes so that every character can be told: quotes and backslashes get a
backslash, the usual control characters their letter, and everything else that is not printable its code in
hexadecimal, with two, four or eight digits.
-/
namespace LoopNest
namespace Text

/-- How a character is written between quotes `mark`. -/
def quotedChar (mark c : Char) : List Char :=
  if c = mark ∨ c = '\\' then ['\\', c]
  else if isPrintable c then [c]
  else if c = '\x07' then ['\\', 'a']
  else if c = '\x08' then ['\\', 'b']
  else if c = '\x0c' then ['\\', 'f']
  else if c = '\n' then ['\\', 'n']
  else if c = '\r' then ['\\', 'r']
  else if c = '\t' then ['\\', 't']
  else if c = '\x0b' then ['\\', 'v']
  else if c.toNat < 0x20 ∨ c.toNat = 0x7f then '\\' :: 'x' :: hexDigits 2 c.toNat
  else if c.toNat < 0x10000 then '\\' :: 'u' :: hexDigits 4 c.toNat
  else '\\' :: 'U' :: hexDigits 8 c.toNat

/-- **A text between double quotes**, with escapes. -/
def quoted (s : String) : String := String.ofList ('"' :: s.toList.flatMap (quotedChar '"') ++ ['"'])

/-- A character between single quotes, with escapes. -/
def quotedMark (c : Char) : String := String.ofList ('\'' :: quotedChar '\'' c ++ ['\''])

/-- Texts with a separator between any two of them. -/
def joined (sep : String) : List String → String
  | [] => ""
  | [s] => s
  | s :: t :: rest => s ++ sep ++ joined sep (t :: rest)

/-- **Texts between square brackets**, separated by blanks. -/
def listed (xs : List String) : String := "[" ++ joined " " xs ++ "]"

end Text
end LoopNest
