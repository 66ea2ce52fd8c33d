import LoopNest.Yaml.Meaning
/-!
# Yaml.Printer — writing texts

A text is written plain where that reads back as the same text, between quotes where it does not, and in a block of
its own when it has more than one line.
-/
namespace LoopNest
namespace Yaml

/-! ### What stands in a text -/

/-- Whether a character is written as it is, whatever stands around it. -/
def isShown (c : Char) : Bool :=
  let n := c.toNat
  n == 0x0a || (0x20 ≤ n && n ≤ 0x7e) || (0xa0 ≤ n && n ≤ 0xfffd && n != 0xfeff)

/-- Whether a text ends here or goes on with a blank. -/
def atBlank : List Char → Bool
  | [] => true
  | c :: _ => isBlank c

/-- Whether a plain text may begin so. -/
def opensPlain : List Char → Bool
  | [] => true
  | c :: rest =>
    if c = '?' ∨ c = ':' ∨ c = '-' then !atBlank rest
    else !(['#', ',', '[', ']', '{', '}', '&', '*', '!', '|', '>', '\'', '"', '%', '@', Char.ofNat 96].contains c)

/-- Whether a text begins as a mark between documents does. -/
def looksLikeMark (cs : List Char) : Bool := cs.take 3 == ['-', '-', '-'] || cs.take 3 == ['.', '.', '.']

/-- Whether nothing after the first character of a plain text would end it: no colon before a blank, and no `#` after
one.  `previous` is the character before. -/
def staysPlain : Char → List Char → Bool
  | _, [] => true
  | previous, c :: rest =>
    !(c == ':' && atBlank rest) && !(c == '#' && (isBlank previous || isBreak previous)) && staysPlain c rest

/-- Whether two characters next to each other satisfy `f`. -/
def hasPair (f : Char → Char → Bool) : List Char → Bool
  | a :: b :: rest => f a b || hasPair f (b :: rest)
  | _ => false

/-- Whether a line break comes before a blank somewhere. -/
def breakBeforeBlank (cs : List Char) : Bool := hasPair (fun a b => isBreak a && b == ' ') cs

/-- Whether a blank comes before a line break somewhere. -/
def blankBeforeBreak (cs : List Char) : Bool := hasPair (fun a b => a == ' ' && isBreak b) cs

/-- Whether a character needs an escape. -/
def needsEscape (c : Char) : Bool := c != '\t' && !isShown c

/-- **Whether a text may stand plain.** -/
def allowsPlain (cs : List Char) : Bool :=
  !looksLikeMark cs && opensPlain cs && staysPlain (cs.headD 'x') (cs.drop 1) &&
    cs.all (fun c => isShown c && !isBreak c) && cs.head? != some ' ' && cs.getLast? != some ' '

/-- **Whether a text may stand between single quotes.** -/
def allowsSingle (cs : List Char) : Bool := cs.all isShown && !breakBeforeBlank cs && !blankBeforeBreak cs

/-- **Whether a text may stand in a block of its own.** -/
def allowsBlock (cs : List Char) : Bool :=
  !cs.any needsEscape && !blankBeforeBreak cs && cs.getLast? != some ' '

/-! ### Forms -/

/-- The characters of a text with the indentation at the start of every line; `fresh` says that a line begins. -/
def indentedLines (indent : Nat) (write : Char → List Char) : Bool → List Char → List Char
  | _, [] => []
  | fresh, c :: rest =>
    if isBreak c then c :: indentedLines indent write true rest
    else (if fresh then List.replicate indent ' ' else []) ++ write c ++ indentedLines indent write false rest

/-- Single quotes: a quote inside is written twice. -/
def singleQuoted (indent : Nat) (cs : List Char) : List Char :=
  '\'' :: indentedLines indent (fun c => if c = '\'' then ['\'', '\''] else [c]) false cs ++ ['\'']

/-- A digit of a code in capitals. -/
def capital (c : Char) : Char := if 'a' ≤ c ∧ c ≤ 'f' then Char.ofNat (c.toNat - 32) else c

/-- The code of a character after a backslash. -/
def codeEscape (c : Char) : List Char :=
  let n := c.toNat
  let code (mark : Char) (width : Nat) := '\\' :: mark :: (Text.hexDigits width n).map capital
  if n ≤ 0xff then code 'x' 2 else if n ≤ 0xffff then code 'u' 4 else code 'U' 8

/-- The letter that stands for a character after a backslash. -/
def letterOf? (c : Char) : Option Char :=
  if c = '\x00' then some '0'
  else if c = '\x07' then some 'a'
  else if c = '\x08' then some 'b'
  else if c = '\t' then some 't'
  else if c = '\n' then some 'n'
  else if c = '\x0b' then some 'v'
  else if c = '\x0c' then some 'f'
  else if c = '\r' then some 'r'
  else if c = '\x1b' then some 'e'
  else if c = '"' ∨ c = '\\' then some c
  else if c = '\u0085' then some 'N'
  else if c = '\u2028' then some 'L'
  else if c = '\u2029' then some 'P'
  else none

/-- A character between double quotes. -/
def doubleQuotedChar (c : Char) : List Char :=
  match letterOf? c with
  | some letter => ['\\', letter]
  | none => if isShown c then [c] else codeEscape c

/-- Double quotes. -/
def doubleQuoted (cs : List Char) : List Char := '"' :: cs.flatMap doubleQuotedChar ++ ['"']

/-- The hints at the head of a block: that its first line begins with a blank or is empty, and what becomes of the
line breaks at its end. -/
def blockHints (cs : List Char) : List Char :=
  let spaced := match cs with | c :: _ => c == ' ' || isBreak c | [] => false
  let ending := match cs.reverse with
    | [] => ['-']
    | [c] => if isBreak c then ['+'] else ['-']
    | c :: b :: _ => if !isBreak c then ['-'] else if isBreak b then ['+'] else []
  (if spaced then ['2'] else []) ++ ending

/-- A block of its own.  A line break at the start of the text ends the head of the block. -/
def literalBlock (indent : Nat) (cs : List Char) : List Char :=
  let starts := match cs with | c :: _ => isBreak c | [] => true
  '|' :: blockHints cs ++ (if starts then [] else ['\n']) ++ indentedLines indent (fun c => [c]) true cs

/-! ### The choice -/

/-- Digits and underscores at the front of a text. -/
def dropDigits (cs : List Char) : List Char := cs.dropWhile (fun c => Text.isDecimalDigit c || c == '_')

/-- Whether what is left is a row of sixtieths: a colon and up to two digits each, the first of two below six. -/
def isSixtieths : Nat → List Char → Bool
  | 0, _ => false
  | fuel + 1, ':' :: cs =>
    let after (cs : List Char) : Bool :=
      cs.isEmpty || isSixtieths fuel cs || (cs.head? == some '.' && (dropDigits cs.tail).isEmpty)
    match cs with
    | a :: b :: rest =>
      if Text.isDecimalDigit a then
        if Text.isDecimalDigit b then decide (a ≤ '5') && after rest else after (b :: rest)
      else false
    | [a] => Text.isDecimalDigit a
    | [] => false
  | _ + 1, _ => false

/-- Whether a text is a number in base sixty. -/
def isBaseSixty (cs : List Char) : Bool :=
  let cs := (Text.Decimal.readSign cs).2
  match cs with
  | c :: _ => Text.isDecimalDigit c && isSixtieths (cs.length + 1) (dropDigits cs)
  | [] => false

/-- The words that once were truth values. -/
def answers : List String :=
  ["y", "Y", "yes", "Yes", "YES", "on", "On", "ON", "n", "N", "no", "No", "NO", "off", "Off", "OFF"]

/-- Whether a text without quotes is read as a text everywhere. -/
def readsAsText (cs : List Char) : Bool :=
  Meaning.ofPlain cs == .text && !isBaseSixty cs && !answers.contains (String.ofList cs)

/-- **Writes a text** whose further lines are indented by `indent`. -/
def writeText (indent : Nat) (s : String) : List Char :=
  let cs := s.toList
  if cs.contains '\n' then if allowsBlock cs then literalBlock indent cs else doubleQuoted cs
  else if readsAsText cs then
    if allowsPlain cs then cs else if allowsSingle cs then singleQuoted indent cs else doubleQuoted cs
  else doubleQuoted cs

end Yaml
end LoopNest
