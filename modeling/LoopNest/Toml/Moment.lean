import LoopNest.Text.Calendar
/-!
# Toml.Moment — dates and times

`isMoment` accepts a date, a time, a date and a time, and these with an offset from universal time.  All fields have
their full width, and days exist in their month.
-/
namespace LoopNest
namespace Toml

open Text (readField readMark readOffset daysIn)

/-- Reads a date. -/
def readDate (cs : List Char) : Option (List Char) := do
  let (year, cs) ← readField 4 0 9999 cs
  let cs ← readMark '-' cs
  let (month, cs) ← readField 2 1 12 cs
  let cs ← readMark '-' cs
  let (_, cs) ← readField 2 1 (daysIn year month) cs
  pure cs

/-- Passes over a fraction of a second; without digits there is none. -/
def skipFraction : List Char → List Char
  | '.' :: d :: rest => if Text.isDecimalDigit d then rest.dropWhile Text.isDecimalDigit else '.' :: d :: rest
  | cs => cs

/-- Reads a time of the day. -/
def readTime (cs : List Char) : Option (List Char) := do
  let (_, cs) ← readField 2 0 23 cs
  let cs ← readMark ':' cs
  let (_, cs) ← readField 2 0 59 cs
  let cs ← readMark ':' cs
  let (_, cs) ← readField 2 0 59 cs
  pure (skipFraction cs)

/-- The letters of a moment in their usual case, and a letter between date and time. -/
def momentChar (c : Char) : Char := if c = 'z' then 'Z' else if c = 't' ∨ c = ' ' then 'T' else c

/-- **Whether a text is a moment.** -/
def isMoment (text : List Char) : Bool :=
  let cs := text.map momentChar
  match readDate cs with
  | some [] => true
  | some ('T' :: rest) =>
    match readTime rest with
    | some [] => true
    | some rest' => readOffset rest' == some []
    | none => false
  | _ => readTime cs == some []

end Toml
end LoopNest
