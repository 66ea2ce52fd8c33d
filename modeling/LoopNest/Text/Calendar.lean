import LoopNest.Text.Numeral
/-!
# Text.Calendar — the fields of dates and times

Numbers of digits between bounds, the marks between them, and the length of months.
-/
namespace LoopNest
namespace Text

/-- Reads `width` digits whose number lies between two bounds. -/
def readField (width low high : Nat) (cs : List Char) : Option (Nat × List Char) :=
  let ds := cs.take width
  if ds.length = width ∧ ds.all isDecimalDigit ∧ low ≤ digitsValue ds ∧ digitsValue ds ≤ high then
    some (digitsValue ds, cs.drop width)
  else none

/-- Reads one digit, or two if there are two, whose number lies between two bounds. -/
def readShortField (low high : Nat) (cs : List Char) : Option (Nat × List Char) :=
  readField (max 1 (min 2 (cs.takeWhile isDecimalDigit).length)) low high cs

/-- Reads one given character. -/
def readMark (c : Char) : List Char → Option (List Char)
  | d :: rest => if d = c then some rest else none
  | [] => none

/-- Whether a year has a 29th of February. -/
def isLeapYear (y : Nat) : Bool := y % 4 == 0 && (y % 100 != 0 || y % 400 == 0)

/-- The number of days of a month. -/
def daysIn (year month : Nat) : Nat :=
  if month = 2 then if isLeapYear year then 29 else 28
  else if month = 4 ∨ month = 6 ∨ month = 9 ∨ month = 11 then 30
  else 31

/-- Reads an offset from universal time. -/
def readOffset : List Char → Option (List Char)
  | 'Z' :: rest => some rest
  | s :: cs =>
    if s = '+' ∨ s = '-' then do
      let (_, cs) ← readField 2 0 24 cs
      let cs ← readMark ':' cs
      let (_, cs) ← readField 2 0 60 cs
      pure cs
    else none
  | [] => none

end Text
end LoopNest
