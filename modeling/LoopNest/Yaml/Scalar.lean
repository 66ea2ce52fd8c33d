import LoopNest.Yaml.Token
/-!
# Yaml.Scalar — reading texts

Texts stand plain, between quotes, or in a block of their own.  Each reader here starts at the first character of a
text and gives the text and the place after it, or `none` when the text is malformed.  Line breaks inside plain and
quoted texts are folded: one becomes a blank, and of more the first is dropped.
-/
namespace LoopNest
namespace Yaml

/-- **Blanks and line breaks inside a text**: the blanks before the first break, the first break, and the others. -/
structure Gap where
  blanks : List Char
  first : Option Char
  others : List Char

namespace Gap

/-- No gap. -/
def empty : Gap := ⟨[], none, []⟩

/-- What a gap contributes to a text. -/
def folded (g : Gap) : List Char :=
  match g.first with
  | none => g.blanks ++ g.others
  | some '\n' => if g.others.isEmpty then [' '] else g.others
  | some c => c :: g.others

end Gap

/-- The gap at a place, up to `fuel` characters, after the part in `g`; `broken` says that a line break came before.
A tab in the indentation of a line, left of `indent`, gives `none`. -/
def readGap (indent : Int) : Nat → Bool → Gap → Place → Option (Bool × Gap × Place)
  | 0, broken, g, p => some (broken, g, p)
  | fuel + 1, broken, g, p =>
    match p.rest with
    | [] => some (broken, g, p)
    | c :: _ =>
      if isBlank c then
        if broken then
          if c == '\t' && decide ((p.column : Int) < indent) then none else readGap indent fuel broken g (p.skip 1)
        else readGap indent fuel broken { g with blanks := g.blanks ++ [c] } (p.skip 1)
      else
        match takeBreak p.rest with
        | none => some (broken, g, p)
        | some (b, _) =>
          if broken then readGap indent fuel true { g with others := g.others ++ [b] } p.skipBreak
          else readGap indent fuel true ⟨[], some b, g.others⟩ p.skipBreak

/-! ### Plain texts -/

/-- Whether a plain text ends before these characters. -/
def endsPlain (inFlow : Bool) : List Char → Bool
  | [] => true
  | c :: rest =>
    (c == ':' && atGap rest) || (inFlow && (c == ',' || c == '?' || c == '[' || c == ']' || c == '{' || c == '}'))

/-- The characters of a plain text up to a gap or a mark that ends it. -/
def plainRun (inFlow : Bool) : List Char → List Char
  | [] => []
  | c :: rest => if isBlank c || isBreak c || endsPlain inFlow (c :: rest) then [] else c :: plainRun inFlow rest

/-- **Reads a plain text** in a block with this indentation.  Says also whether line breaks were read after it. -/
def readPlain (inFlow : Bool) (indent : Int) :
    Nat → Bool → Gap → List Char → Place → Option (List Char × Bool × Place)
  | 0, broken, _, text, p => some (text, broken, p)
  | fuel + 1, broken, gap, text, p =>
    if p.atDocumentMark || p.rest.head? == some '#' then some (text, broken, p)
    else
      let run := plainRun inFlow p.rest
      let text' := if run.isEmpty then text else text ++ gap.folded ++ run
      let p' := p.skip run.length
      let broken' := broken && run.isEmpty
      if p'.rest.isEmpty || !atGap p'.rest then some (text', broken', p')
      else
        match readGap indent (p'.rest.length + 1) broken' (if run.isEmpty then gap else .empty) p' with
        | none => none
        | some (broken'', gap', p'') =>
          if !inFlow && decide ((p''.column : Int) < indent) then some (text', broken'', p'')
          else readPlain inFlow indent fuel broken'' gap' text' p''

/-! ### Quoted texts -/

/-- The character that a backslash and a letter stand for. -/
def escapeOf? (c : Char) : Option Char :=
  if c = '0' then some '\x00'
  else if c = 'a' then some '\x07'
  else if c = 'b' then some '\x08'
  else if c = 't' ∨ c = '\t' then some '\t'
  else if c = 'n' then some '\n'
  else if c = 'v' then some '\x0b'
  else if c = 'f' then some '\x0c'
  else if c = 'r' then some '\r'
  else if c = 'e' then some '\x1b'
  else if c = ' ' ∨ c = '"' ∨ c = '\'' ∨ c = '\\' then some c
  else if c = 'N' then some '\u0085'
  else if c = '_' then some '\u00a0'
  else if c = 'L' then some '\u2028'
  else if c = 'P' then some '\u2029'
  else none

/-- How many hexadecimal digits follow a backslash and a letter. -/
def codeWidth? (c : Char) : Option Nat :=
  if c = 'x' then some 2 else if c = 'u' then some 4 else if c = 'U' then some 8 else none

/-- The character of an escape, and how many characters it takes with its backslash. -/
def escape? : List Char → Option (Char × Nat)
  | [] => none
  | c :: rest =>
    match escapeOf? c with
    | some e => some (e, 2)
    | none =>
      match codeWidth? c with
      | none => none
      | some w =>
        if (rest.take w).length = w then ((Text.hexNumber? (rest.take w)).bind Text.charOfCode?).map (fun e => (e, w + 2))
        else none

/-- How a run of characters between quotes ends. -/
inductive RunEnd where
  /-- At a blank, a line break, the closing quote or the end of the text. -/
  | plain
  /-- At a backslash that takes the line break after it away. -/
  | continued

/-- The characters between quotes up to a gap or the closing quote. -/
def quotedRun (double : Bool) : Nat → Place → Option (List Char × RunEnd × Place)
  | 0, p => some ([], .plain, p)
  | fuel + 1, p =>
    let take (c : Char) (n : Nat) := (quotedRun double fuel (p.skip n)).map (fun r => (c :: r.1, r.2))
    match p.rest with
    | [] => some ([], .plain, p)
    | c :: rest =>
      if isBlank c || isBreak c then some ([], .plain, p)
      else if double then
        if c = '"' then some ([], .plain, p)
        else if c = '\\' then
          if rest ≠ [] ∧ atLineEnd rest then some ([], .continued, (p.skip 1).skipBreak)
          else
            match escape? rest with
            | none => none
            | some (e, n) => take e n
        else take c 1
      else if c = '\'' then if rest.head? = some '\'' then take '\'' 2 else some ([], .plain, p)
      else take c 1

/-- **Reads a quoted text** whose opening quote has been read, up to and with its closing quote. -/
def readQuoted (double : Bool) : Nat → List Char → Place → Option (List Char × Place)
  | 0, _, _ => none
  | fuel + 1, text, p =>
    if p.atDocumentMark || p.rest.isEmpty then none
    else
      match quotedRun double (p.rest.length + 1) p with
      | none => none
      | some (run, ending, p') =>
        let continued : Bool := match ending with | .continued => true | .plain => false
        if p'.rest.head? = some (if double then '"' else '\'') then some (text ++ run, p'.skip 1)
        else
          match readGap (-1) (p'.rest.length + 1) continued .empty p' with
          | none => none
          | some (_, gap, p'') => readQuoted double fuel (text ++ run ++ gap.folded) p''

/-! ### Blocks -/

/-- What becomes of the line breaks at the end of a block. -/
inductive Chomp where
  /-- One is kept. -/
  | clip
  /-- None is kept. -/
  | strip
  /-- All are kept. -/
  | keep

/-- The hint for line breaks that a mark gives. -/
def chompOf? (c : Char) : Option Chomp := if c = '+' then some .keep else if c = '-' then some .strip else none

/-- The hint for the indentation that a digit gives. -/
def indentOf? (c : Char) : Option Nat := if Text.isDecimalDigit c then some (c.toNat - 48) else none

/-- Reads the hints after the mark of a block, in either order; an indentation of zero is refused. -/
def readHints (p : Place) : Option (Chomp × Nat × Place) :=
  match p.rest with
  | [] => some (.clip, 0, p)
  | c :: rest =>
    match chompOf? c with
    | some chomp =>
      match rest.head?.bind indentOf? with
      | some n => if n = 0 then none else some (chomp, n, p.skip 2)
      | none => some (chomp, 0, p.skip 1)
    | none =>
      match indentOf? c with
      | some n =>
        if n = 0 then none
        else
          match rest.head?.bind chompOf? with
          | some chomp => some (chomp, n, p.skip 2)
          | none => some (.clip, n, p.skip 1)
      | none => some (.clip, 0, p)

/-- Indentation and empty lines before a line of a block: the line breaks, and the greatest column reached.  With
`indent` zero all blanks count as indentation. -/
def readEmptyLines (indent : Nat) : Nat → List Char → Nat → Place → Option (List Char × Nat × Place)
  | 0, breaks, deepest, p => some (breaks, deepest, p)
  | fuel + 1, breaks, deepest, p =>
    let blanks := (p.rest.takeWhile (· == ' ')).length
    let p' := p.skip (if indent = 0 then blanks else min blanks (indent - p.column))
    let deepest' := max deepest p'.column
    match p'.rest with
    | [] => some (breaks, deepest', p')
    | c :: _ =>
      if c == '\t' && (indent == 0 || decide (p'.column < indent)) then none
      else
        match takeBreak p'.rest with
        | none => some (breaks, deepest', p')
        | some (b, _) => readEmptyLines indent fuel (breaks ++ [b]) deepest' p'.skipBreak

/-- The lines of a block: the text so far, the break after its last line, the breaks after that, and whether the last
line began with a blank. -/
structure BlockText where
  text : List Char
  last : List Char
  breaks : List Char
  spaced : Bool

/-- A block with one more line that begins with a blank or not. -/
def BlockText.join (fold : Bool) (b : BlockText) (spaced : Bool) : List Char :=
  if fold && !b.spaced && !spaced && b.last == ['\n'] then
    b.text ++ (if b.breaks.isEmpty then [' '] else []) ++ b.breaks
  else b.text ++ b.last ++ b.breaks

/-- Reads the lines of a block with a known indentation. -/
def readLines (fold : Bool) (indent : Nat) : Nat → BlockText → Place → Option (BlockText × Place)
  | 0, b, p => some (b, p)
  | fuel + 1, b, p =>
    if p.column ≠ indent ∨ p.rest = [] then some (b, p)
    else
      let spaced := (p.rest.head?.map isBlank).getD false
      let line := p.rest.takeWhile (fun c => !isBreak c)
      let p' := p.skip line.length
      let last := match takeBreak p'.rest with | some (c, _) => [c] | none => []
      match readEmptyLines indent (p.rest.length + 1) [] 0 p'.skipBreak with
      | none => none
      | some (breaks, _, p'') =>
        readLines fold indent fuel ⟨b.join fold spaced ++ line, last, breaks, spaced⟩ p''

/-- **Reads a text in a block**, at its mark, inside a block with indentation `outer`. -/
def readBlock (fold : Bool) (outer : Int) (p : Place) : Option (List Char × Place) :=
  match readHints (p.skip 1) with
  | none => none
  | some (chomp, hint, p) =>
    let p := p.skipWhile isBlank
    let p := if p.rest.head? = some '#' then p.skipWhile (fun c => !isBreak c) else p
    if !atLineEnd p.rest then none
    else
      let p := p.skipBreak
      let indent := if hint = 0 then 0 else if 0 ≤ outer then outer.toNat + hint else hint
      match readEmptyLines indent (p.rest.length + 1) [] 0 p with
      | none => none
      | some (breaks, deepest, p) =>
        let indent := if indent = 0 then max (max deepest (outer + 1).toNat) 1 else indent
        match readLines fold indent (p.rest.length + 1) ⟨[], [], breaks, false⟩ p with
        | none => none
        | some (b, p) =>
          some (match chomp with
            | .strip => b.text
            | .clip => b.text ++ b.last
            | .keep => b.text ++ b.last ++ b.breaks, p)

end Yaml
end LoopNest
