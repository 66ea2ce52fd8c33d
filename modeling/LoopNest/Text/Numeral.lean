/-!
# Text.Numeral — integers as text

Decimal and hexadecimal digits of a number, and the reading of an integer literal: an optional sign, an optional base
mark (`0x`, `0o`, `0b`, or a bare leading `0` for base eight), digits, and underscores between digits.
-/
namespace LoopNest
namespace Text

/-- The digit of a value below sixteen. -/
def digitChar (d : Nat) : Char := if d < 10 then Char.ofNat (48 + d) else Char.ofNat (87 + d)

/-- **The decimal digits of a number**, most significant first. -/
def decimalDigits (n : Nat) : List Char :=
  if n < 10 then [digitChar n] else decimalDigits (n / 10) ++ [digitChar (n % 10)]

/-- A number in decimal. -/
def decimal (n : Nat) : String := String.ofList (decimalDigits n)

/-- The decimal digits of an integer, after a minus sign if it is negative. -/
def signedDigits : Int → List Char
  | .ofNat n => decimalDigits n
  | .negSucc n => '-' :: decimalDigits (n + 1)

/-- An integer in decimal. -/
def signedDecimal (i : Int) : String := String.ofList (signedDigits i)

/-- The `width` last hexadecimal digits of a number. -/
def hexDigits : Nat → Nat → List Char
  | 0, _ => []
  | width + 1, n => hexDigits width (n / 16) ++ [digitChar (n % 16)]

/-- The value of a digit, letters of either case standing for ten and up. -/
def digitValue? (c : Char) : Option Nat :=
  if '0' ≤ c ∧ c ≤ '9' then some (c.toNat - 48)
  else if 'a' ≤ c ∧ c ≤ 'z' then some (c.toNat - 87)
  else if 'A' ≤ c ∧ c ≤ 'Z' then some (c.toNat - 55)
  else none

/-- The value of a hexadecimal digit. -/
def hexValue? (c : Char) : Option Nat := (digitValue? c).filter (fun d => d < 16)

/-- The number that hexadecimal digits spell. -/
def hexNumber? (cs : List Char) : Option Nat :=
  cs.foldl (fun acc c => acc.bind (fun n => (hexValue? c).map (fun d => 16 * n + d))) (some 0)

/-- Why a text is no integer of the wanted width. -/
inductive NumeralError where
  | malformed
  | outOfRange
deriving DecidableEq, Repr

/-- One more than the greatest unsigned word. -/
def wordBound : Nat := Nat.pow 2 64

/-- One more than the greatest signed word. -/
def signedBound : Nat := Nat.pow 2 63

/-- Reads digits of a base after the value `n`; underscores are passed over.  The first fault from the left counts. -/
def readDigits (base : Nat) : List Char → Nat → Except NumeralError Nat
  | [], n => .ok n
  | '_' :: cs, n => readDigits base cs n
  | c :: cs, n =>
    match digitValue? c with
    | none => .error .malformed
    | some d =>
      if base ≤ d then .error .malformed
      else if wordBound ≤ n * base + d then .error .outOfRange
      else readDigits base cs (n * base + d)

/-- Whether a character is a decimal digit. -/
def isDecimalDigit (c : Char) : Bool := decide ('0' ≤ c ∧ c ≤ '9')

/-- The number that decimal digits spell. -/
def digitsValue (ds : List Char) : Nat := ds.foldl (fun n d => 10 * n + (d.toNat - 48)) 0

/-- The character with a code, if there is one. -/
def charOfCode? (n : Nat) : Option Char :=
  if n < 0xD800 ∨ (0xE000 ≤ n ∧ n < 0x110000) then some (Char.ofNat n) else none

/-- Whether a character is a hexadecimal digit. -/
def isHexDigit (c : Char) : Bool := (hexValue? c).isSome

/-- Whether every underscore stands between two digits; `afterDigit` says that a digit came just before. -/
def underscoresSeparate (isDigit : Char → Bool) : List Char → Bool → Bool
  | [], _ => true
  | '_' :: [], _ => false
  | '_' :: c :: cs, afterDigit => afterDigit && isDigit c && underscoresSeparate isDigit (c :: cs) true
  | c :: cs, _ => underscoresSeparate isDigit cs (isDigit c)

/-- The base that the start of a literal marks, and the digits after the mark.  A lone `0` is base eight without
digits, which is zero. -/
def baseOf : List Char → Nat × List Char
  | '0' :: m :: d :: ds =>
    if m = 'b' ∨ m = 'B' then (2, d :: ds)
    else if m = 'o' ∨ m = 'O' then (8, d :: ds)
    else if m = 'x' ∨ m = 'X' then (16, d :: ds)
    else (8, m :: d :: ds)
  | '0' :: ds => (8, ds)
  | ds => (10, ds)

/-- Whether the underscores of an unsigned literal are well placed: a base mark counts as a digit. -/
def underscoresOk (cs : List Char) : Bool :=
  match cs with
  | '0' :: m :: ds =>
    if m = 'x' ∨ m = 'X' then underscoresSeparate isHexDigit ds true
    else if m = 'b' ∨ m = 'B' ∨ m = 'o' ∨ m = 'O' then underscoresSeparate isDecimalDigit ds true
    else underscoresSeparate isDecimalDigit cs false
  | _ => underscoresSeparate isDecimalDigit cs false

/-- **Reads an unsigned literal** below `wordBound`. -/
def readUnsigned (cs : List Char) : Except NumeralError Nat :=
  if cs.isEmpty then .error .malformed
  else
    let (base, ds) := baseOf cs
    match readDigits base ds 0 with
    | .error e => .error e
    | .ok n => if cs.contains '_' && !underscoresOk cs then .error .malformed else .ok n

/-- Puts a sign before a magnitude, within the signed words. -/
def signedWithin (negative : Bool) (n : Nat) : Except NumeralError Int :=
  if negative then if n ≤ signedBound then .ok (-(n : Int)) else .error .outOfRange
  else if n < signedBound then .ok (n : Int) else .error .outOfRange

/-- **Reads a signed literal** that fits a signed word. -/
def readSigned (cs : List Char) : Except NumeralError Int :=
  match cs with
  | '-' :: ds => (readUnsigned ds).bind (signedWithin true)
  | '+' :: ds => (readUnsigned ds).bind (signedWithin false)
  | ds => (readUnsigned ds).bind (signedWithin false)

end Text
end LoopNest
