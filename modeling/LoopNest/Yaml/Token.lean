import LoopNest.Text.Numeral
/-!
# Yaml.Token — the tokens of an indented document

A document is cut into tokens first.  Besides the marks and texts that stand in it there are tokens for what its
indentation says: where a block of entries or of keys begins and ends, and which texts are keys.
-/
namespace LoopNest
namespace Yaml

/-- How a text was written. -/
inductive Style where
  | plain
  | single
  | double
  | literal
  | folded
deriving DecidableEq, Repr

/-- **A token.** -/
inductive Token where
  | streamEnd
  | version (major minor : Nat)
  | tagHandle (handle meaning : List Char)
  | documentStart
  | documentEnd
  | blockSequenceStart
  | blockMappingStart
  | blockEnd
  | flowSequenceStart
  | flowSequenceEnd
  | flowMappingStart
  | flowMappingEnd
  | blockEntry
  | flowEntry
  | key
  | value
  | alias (name : List Char)
  | anchor (name : List Char)
  | tag (handle suffix : List Char)
  | scalar (style : Style) (text : List Char)
deriving DecidableEq, Repr

/-! ### Characters -/

/-- Whether a character may stand in a document. -/
def isAllowed (c : Char) : Bool :=
  c == '\t' || c == '\n' || c == '\r' || (0x20 ≤ c.toNat && c.toNat ≤ 0x7e) || c.toNat == 0x85 ||
    (0xa0 ≤ c.toNat && c.toNat ≤ 0xfffd) || 0x10000 ≤ c.toNat

/-- Whether a character breaks a line. -/
def isBreak (c : Char) : Bool := c == '\n' || c == '\r' || c == '\u0085' || c == '\u2028' || c == '\u2029'

/-- Whether a character is a blank or a tab. -/
def isBlank (c : Char) : Bool := c == ' ' || c == '\t'

/-- Whether a text has ended, or goes on with a blank or a line break. -/
def atGap : List Char → Bool
  | [] => true
  | c :: _ => isBlank c || isBreak c

/-- Whether a text has ended or its line has. -/
def atLineEnd : List Char → Bool
  | [] => true
  | c :: _ => isBreak c

/-- Whether a character may stand in a name. -/
def isNameChar (c : Char) : Bool :=
  decide (('a' ≤ c ∧ c ≤ 'z') ∨ ('A' ≤ c ∧ c ≤ 'Z') ∨ ('0' ≤ c ∧ c ≤ '9') ∨ c = '_' ∨ c = '-')

/-- The line break that a text begins with, in its normal form, and what follows. -/
def takeBreak : List Char → Option (Char × List Char)
  | '\r' :: '\n' :: rest => some ('\n', rest)
  | c :: rest =>
    if c = '\u2028' ∨ c = '\u2029' then some (c, rest) else if isBreak c then some ('\n', rest) else none
  | [] => none

/-! ### Where reading stands -/

/-- **A place in a text**: what is left of it, and how far it is. -/
structure Place where
  rest : List Char
  line : Nat
  column : Nat
  index : Nat

namespace Place

/-- The start of a text. -/
def start (cs : List Char) : Place := ⟨cs, 0, 0, 0⟩

/-- The place `n` characters further on the same line. -/
def skip (p : Place) (n : Nat) : Place := ⟨p.rest.drop n, p.line, p.column + n, p.index + n⟩

/-- The place after the characters that `f` accepts, none of which breaks a line. -/
def skipWhile (p : Place) (f : Char → Bool) : Place :=
  ⟨p.rest.dropWhile f, p.line, p.column + (p.rest.takeWhile f).length, p.index + (p.rest.takeWhile f).length⟩

/-- The place after a line break. -/
def skipBreak (p : Place) : Place :=
  match p.rest with
  | '\r' :: '\n' :: rest => ⟨rest, p.line + 1, 0, p.index + 2⟩
  | _ :: rest => ⟨rest, p.line + 1, 0, p.index + 1⟩
  | [] => p

/-- Whether three marks and a gap stand at the start of a line here. -/
def atMarks (p : Place) (c : Char) : Bool :=
  p.column == 0 &&
    match p.rest with
    | a :: b :: d :: rest => a == c && b == c && d == c && atGap rest
    | _ => false

/-- Whether a document begins or ends here. -/
def atDocumentMark (p : Place) : Bool := p.atMarks '-' || p.atMarks '.'

/-- The place after blanks and line breaks, `fuel` characters at most. -/
def skipSpace : Nat → Place → Place
  | 0, p => p
  | fuel + 1, p =>
    match p.rest with
    | c :: _ => if isBreak c then skipSpace fuel p.skipBreak else if isBlank c then skipSpace fuel (p.skip 1) else p
    | [] => p

end Place
end Yaml
end LoopNest
