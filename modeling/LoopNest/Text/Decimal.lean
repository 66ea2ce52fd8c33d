import LoopNest.Text.Numeral
/-!
# Text.Decimal — decimal fractions, and the nearest of the double words

A `Decimal` is a literal with a point or an exponent, taken apart.  The double word nearest to it, a half going to the
even neighbour, is found in exact arithmetic.
-/
namespace LoopNest
namespace Text

/-- **A decimal number**: `mantissa · 10 ^ exponent`. -/
structure Decimal where
  negative : Bool
  mantissa : Nat
  exponent : Int
deriving DecidableEq, Repr

namespace Decimal

/-- The sign at the front of a literal. -/
def readSign : List Char → Bool × List Char
  | '-' :: rest => (true, rest)
  | '+' :: rest => (false, rest)
  | cs => (false, cs)

/-- The exponent at the end of a literal, which may be missing. -/
def readExponent? : List Char → Option Int
  | [] => some 0
  | e :: rest =>
    if e = 'e' ∨ e = 'E' then
      let (negative, ds) := readSign rest
      if ds ≠ [] ∧ ds.all isDecimalDigit then
        some (if negative then -(digitsValue ds : Int) else (digitsValue ds : Int))
      else none
    else none

/-- **Reads a decimal literal**: a sign, digits, a point among them, an exponent; at least one digit is there. -/
def ofLiteral? (cs : List Char) : Option Decimal :=
  let (negative, cs) := readSign cs
  let whole := cs.takeWhile isDecimalDigit
  let rest := cs.dropWhile isDecimalDigit
  let (fraction, rest) := match rest with
    | '.' :: r => (r.takeWhile isDecimalDigit, r.dropWhile isDecimalDigit)
    | r => ([], r)
  if whole.isEmpty && fraction.isEmpty then none
  else
    (readExponent? rest).map (fun e =>
      ⟨negative, digitsValue (whole ++ fraction), e - (fraction.length : Int)⟩)

/-- The quotient `n / d` rounded to the nearest whole number, a half to the even one. -/
def roundQuotient (n d : Nat) : Nat :=
  let q := n / d
  let r := n % d
  if d < 2 * r ∨ (2 * r = d ∧ q % 2 = 1) then q + 1 else q

/-- The greatest power of two in `n / d`, as an exponent; both are positive. -/
def magnitude (n d : Nat) : Int :=
  let e : Int := (Nat.log2 n : Int) - (Nat.log2 d : Int)
  let fits : Bool := if 0 ≤ e then decide (d * Nat.pow 2 e.toNat ≤ n) else decide (d ≤ n * Nat.pow 2 (-e).toNat)
  if fits then e else e - 1

/-- The double word nearest to `n / d`, as a whole number of units `2 ^ exponent`. -/
def nearest (n d : Nat) : Nat × Int :=
  if n = 0 then (0, 0)
  else
    let unit : Int := max (magnitude n d - 52) (-1074)
    (if 0 ≤ unit then roundQuotient n (d * Nat.pow 2 unit.toNat) else roundQuotient (n * Nat.pow 2 (-unit).toNat) d,
      unit)

/-- The absolute value as a quotient.  The exponent lies within some hundreds. -/
def quotient (x : Decimal) : Nat × Nat :=
  if 0 ≤ x.exponent then (x.mantissa * Nat.pow 10 x.exponent.toNat, 1)
  else (x.mantissa, Nat.pow 10 (-x.exponent).toNat)

/-- The place of the leading digit, counted from the point. -/
def leading (x : Decimal) : Int := ((decimalDigits x.mantissa).length : Int) + x.exponent

/-- **The absolute value of the nearest double word**, as units of a power of two; `none` if it is too great for one.
-/
def toDouble? (x : Decimal) : Option (Nat × Int) :=
  if x.mantissa = 0 then some (0, 0)
  else if 400 < x.leading then none
  else if x.leading < -400 then some (0, 0)
  else
    let (n, d) := x.quotient
    let (m, unit) := nearest n d
    if 1024 ≤ magnitude m 1 + unit then none else some (m, unit)

/-- The whole part of units of a power of two. -/
def wholePart (m : Nat) (unit : Int) : Nat :=
  if 0 ≤ unit then m * Nat.pow 2 unit.toNat else m / Nat.pow 2 (-unit).toNat

end Decimal
end Text
end LoopNest
