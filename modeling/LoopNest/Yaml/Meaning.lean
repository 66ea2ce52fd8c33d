import LoopNest.Text.Calendar
import LoopNest.Text.Decimal
import LoopNest.Yaml.Tree
/-!
# Yaml.Meaning — what plain texts mean

A text without quotes may be a number, a truth value, a moment or nothing at all.  `Meaning.ofPlain` says what it is,
and `meaning?` takes the tag of a text into account.
-/
namespace LoopNest
namespace Yaml

/-- **What a text means.** -/
inductive Meaning where
  /-- Nothing. -/
  | null
  | boolean
  | integer (i : Int)
  | decimal (d : Text.Decimal)
  | infinity (negative : Bool)
  | notANumber
  | moment
  /-- The mark that merges mappings. -/
  | merge
  | text
deriving DecidableEq, Repr

namespace Meaning

/-- The words with a meaning of their own. -/
def words : List (String × Meaning) :=
  [("", .null), ("~", .null), ("null", .null), ("Null", .null), ("NULL", .null), ("true", .boolean), ("True", .boolean),
    ("TRUE", .boolean), ("false", .boolean), ("False", .boolean), ("FALSE", .boolean), (".nan", .notANumber),
    (".NaN", .notANumber), (".NAN", .notANumber), (".inf", .infinity false), (".Inf", .infinity false),
    (".INF", .infinity false), ("+.inf", .infinity false), ("+.Inf", .infinity false), ("+.INF", .infinity false),
    ("-.inf", .infinity true), ("-.Inf", .infinity true), ("-.INF", .infinity true)]

/-! ### Moments -/

/-- Reads a date; months and days have one digit or two. -/
def readDate (cs : List Char) : Option (List Char) := do
  let (year, cs) ← Text.readField 4 0 9999 cs
  let cs ← Text.readMark '-' cs
  let (month, cs) ← Text.readShortField 1 12 cs
  let cs ← Text.readMark '-' cs
  let (_, cs) ← Text.readShortField 1 (Text.daysIn year month) cs
  pure cs

/-- Passes over a fraction of a second. -/
def skipFraction : List Char → List Char
  | m :: d :: rest =>
    if (m == '.' || m == ',') && Text.isDecimalDigit d then rest.dropWhile Text.isDecimalDigit else m :: d :: rest
  | cs => cs

/-- Reads a time of the day. -/
def readTime (cs : List Char) : Option (List Char) := do
  let (_, cs) ← Text.readShortField 0 23 cs
  let cs ← Text.readMark ':' cs
  let (_, cs) ← Text.readShortField 0 59 cs
  let cs ← Text.readMark ':' cs
  let (_, cs) ← Text.readShortField 0 59 cs
  pure (skipFraction cs)

/-- **Whether a text is a moment**: a date, a date and a time of the day, or these with an offset. -/
def isMoment (cs : List Char) : Bool :=
  match readDate cs with
  | some [] => true
  | some (m :: rest) =>
    if m = ' ' then readTime rest == some []
    else if m = 'T' ∨ m = 't' then (readTime rest).bind Text.readOffset == some []
    else false
  | none => false

/-! ### Numbers -/

/-- Digits of a base, after a sign. -/
def readBased (base : Nat) (cs : List Char) : Option Int :=
  let (negative, ds) := Text.Decimal.readSign cs
  if ds.isEmpty then none
  else
    match (Text.readDigits base ds 0).bind (Text.signedWithin negative) with
    | .ok i => some i
    | .error _ => none

/-- An integer whose sign comes after the mark of its base. -/
def readInnerSign : List Char → Option Int
  | '0' :: 'b' :: cs => readBased 2 cs
  | '0' :: 'o' :: cs => readBased 8 cs
  | _ => none

/-- An integer of a word, signed or not. -/
def readInteger (cs : List Char) : Option Int :=
  match Text.readSigned cs with
  | .ok i => some i
  | .error _ =>
    match Text.readUnsigned cs with
    | .ok n => some n
    | .error _ => none

/-- A decimal literal that is not too great for a double word. -/
def readDecimal (cs : List Char) : Option Meaning :=
  (Text.Decimal.ofLiteral? cs).bind (fun d => d.toDouble?.map (fun _ => .decimal d))

/-- What a text means that begins with a digit or a sign.  Underscores do not count. -/
def ofNumeral (cs : List Char) : Meaning :=
  let plain := cs.filter (· != '_')
  match readInteger plain with
  | some i => .integer i
  | none =>
    match readDecimal plain with
    | some m => m
    | none =>
      match readInnerSign plain with
      | some i => .integer i
      | none => .text

/-- What a text means that begins with a point. -/
def ofPointed (cs : List Char) : Meaning :=
  if cs.contains '_' && !Text.underscoresSeparate Text.isDecimalDigit cs false then .text
  else (readDecimal (cs.filter (· != '_'))).getD .text

/-- Whether a text begins with a digit or a sign. -/
def startsNumeral : List Char → Bool
  | c :: _ => Text.isDecimalDigit c || c == '+' || c == '-'
  | [] => false

/-- **What a text without quotes and without a tag means.** -/
def ofPlain (cs : List Char) : Meaning :=
  match words.lookup (String.ofList cs) with
  | some m => m
  | none =>
    if startsNumeral cs then if isMoment cs then .moment else ofNumeral cs
    else if cs.head? = some '.' then ofPointed cs
    else .text

/-! ### Tags -/

/-- A tag in its short form. -/
def shortTag (tag : List Char) : List Char :=
  let long := "tag:yaml.org,2002:".toList
  if tag.take long.length = long then '!' :: '!' :: tag.drop long.length else tag

/-- The tag that a meaning has of itself. -/
def tag : Meaning → String
  | .null => "!!null"
  | .boolean => "!!bool"
  | .integer _ => "!!int"
  | .decimal _ | .infinity _ | .notANumber => "!!float"
  | .moment => "!!timestamp"
  | .merge => "!!merge"
  | .text => "!!str"

/-- The double word of an integer that fits a signed word. -/
def widen? (i : Int) : Option Meaning :=
  if i < (Text.signedBound : Int) then some (.decimal ⟨decide (i < 0), i.natAbs, 0⟩) else none

/-- A meaning under a tag, if they agree. -/
def tagged? (t : String) (m : Meaning) : Option Meaning :=
  if t = m.tag then some m
  else
    match m with
    | .integer i => if t = "!!float" then widen? i else none
    | _ => none

end Meaning

/-- **What a text means** by its style, its tag and its characters; `none` if the tag does not fit. -/
def meaning? (style : Style) (tag text : List Char) : Option Meaning :=
  let t := String.ofList (Meaning.shortTag tag)
  if t = "" ∨ t = "!" then
    if style = .plain then if text = ['<', '<'] then some .merge else some (Meaning.ofPlain text) else some .text
  else if t = "!!str" then some .text
  else if t = "!!merge" then if text = ['<', '<'] then some .merge else none
  else
    let m := Meaning.ofPlain text
    -- A moment is looked for only under its own tag; the same text may also be malformed as a number.
    Meaning.tagged? t (if m = .moment ∧ t ≠ "!!timestamp" then Meaning.ofNumeral text else m)

end Yaml
end LoopNest
