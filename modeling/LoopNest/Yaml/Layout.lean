import LoopNest.Yaml.Scalar
/-!
# Yaml.Layout — tokens from text

A `Layout` is how far a text has been cut into tokens, which are kept newest first.  It keeps the columns of the open
blocks, and for every open bracket the place of a text that may turn out to be a key: when a colon follows on the same
line, the token that makes it a key is put in at the count of tokens remembered then.
-/
namespace LoopNest
namespace Yaml

/-- **A text that may be a key**: how many tokens came before it, where it began, and whether it has to be a key. -/
structure Candidate where
  required : Bool
  number : Nat
  line : Nat
  column : Nat
  index : Nat

/-- **A text cut into tokens up to a place.** -/
structure Layout where
  place : Place
  /-- The column of the innermost block, below zero outside of all. -/
  indent : Int
  /-- The columns of the blocks around it. -/
  outer : List Int
  /-- How many brackets are open. -/
  flow : Nat
  /-- Whether a key may begin here. -/
  keyAllowed : Bool
  /-- The candidate for a key inside the innermost bracket. -/
  candidate : Option Candidate
  /-- The candidates outside of it, innermost first. -/
  candidates : List (Option Candidate)
  /-- The tokens, newest first. -/
  tokens : List Token

namespace Layout

/-- The start of a text. -/
def start (cs : List Char) : Layout := ⟨Place.start cs, -1, [], 0, true, none, [], []⟩

/-- The layout with one more token. -/
def emit (s : Layout) (t : Token) : Layout := { s with tokens := t :: s.tokens }

/-- The layout with a token put in after the first `number` tokens. -/
def emitAt (s : Layout) (number : Nat) (t : Token) : Layout :=
  let newer := s.tokens.length - number
  { s with tokens := s.tokens.take newer ++ t :: s.tokens.drop newer }

/-- The layout at another place. -/
def moveTo (s : Layout) (p : Place) : Layout := { s with place := p }

/-- The layout `n` characters further. -/
def skip (s : Layout) (n : Nat) : Layout := s.moveTo (s.place.skip n)

/-- The layout with keys allowed here or not. -/
def allowKey (s : Layout) (allowed : Bool) : Layout := { s with keyAllowed := allowed }

/-- How deep blocks and brackets may nest. -/
def depthLimit : Nat := 10000

/-! ### Keys -/

/-- How many characters a key may take. -/
def keyLimit : Nat := 1024

/-- Drops the candidate for a key; one that has to be a key is missed. -/
def dropCandidate (s : Layout) : Option Layout :=
  match s.candidate with
  | some c => if c.required then none else some { s with candidate := none }
  | none => some s

/-- Remembers this place as that of a possible key. -/
def saveCandidate (s : Layout) : Option Layout :=
  if s.keyAllowed then
    s.dropCandidate.map (fun s =>
      { s with candidate := some ⟨s.flow == 0 && s.indent == (s.place.column : Int), s.tokens.length, s.place.line,
          s.place.column, s.place.index⟩ })
  else some s

/-- Whether a candidate is near enough to be a key. -/
def isNear (s : Layout) (c : Candidate) : Bool :=
  decide (s.place.line ≤ c.line) && decide (s.place.index ≤ c.index + keyLimit)

/-- Opens a block at a column, if it is deeper than the innermost one; its token is put in at a count. -/
def openBlock (s : Layout) (column number : Nat) (t : Token) : Option Layout :=
  if s.flow = 0 ∧ s.indent < (column : Int) then
    if depthLimit ≤ s.outer.length then none
    else some ({ s with outer := s.indent :: s.outer, indent := column }.emitAt number t)
  else some s

/-- Closes the blocks that are deeper than a column. -/
def closeBlocks (column : Int) (s : Layout) : List Int → Layout
  | [] => { s with outer := [] }
  | i :: rest =>
    if column < s.indent then closeBlocks column ({ s with indent := i, outer := rest }.emit .blockEnd) rest
    else { s with outer := i :: rest }

/-- Closes the blocks that do not reach a column; inside brackets columns mean nothing. -/
def dedent (s : Layout) (column : Int) : Layout := if s.flow = 0 then s.closeBlocks column s.outer else s

/-! ### Comments and blanks -/

/-- The place after a comment and the comments on the lines right after it. -/
def skipComments : Nat → Place → Place
  | 0, p => p
  | fuel + 1, p =>
    let ended := p.skipWhile (fun c => !isBreak c)
    let next := ended.skipSpace (ended.rest.length + 1)
    if next.rest.head? = some '#' ∧ next.index < ended.index + 512 then skipComments fuel next else ended

/-- The place after a comment on the rest of this line, if there is one. -/
def skipLineComment (p : Place) : Place :=
  let q := p.skipWhile isBlank
  if q.rest.head? = some '#' then q.skipWhile (fun c => !isBreak c) else p

/-- **Goes to the next token.**  Tabs are passed over where no key may begin, and a line break allows a key. -/
def skipFiller : Nat → Layout → Layout
  | 0, s => s
  | fuel + 1, s =>
    let p := if s.place.column = 0 ∧ s.place.rest.head? = some '\ufeff' then s.place.skip 1 else s.place
    let tabs := decide (0 < s.flow) || !s.keyAllowed
    let p := p.skipWhile (fun c => c == ' ' || (tabs && c == '\t'))
    let p := if p.rest.head? = some '#' then skipComments (p.rest.length + 1) p else p
    match p.rest with
    | c :: _ =>
      if isBreak c then skipFiller fuel ((s.moveTo p.skipBreak).allowKey (s.flow == 0 || s.keyAllowed))
      else s.moveTo p
    | [] => s.moveTo p

/-! ### Tokens -/

/-- The marks that begin and end documents. -/
def takeDocumentMark (s : Layout) (t : Token) : Option Layout :=
  ((s.dedent (-1)).dropCandidate).map (fun s => (s.skip 3).allowKey false |>.emit t)

/-- The end of the text. -/
def takeEnd (s : Layout) : Option Layout :=
  ((s.dedent (-1)).dropCandidate).map (fun s => (s.allowKey false).emit .streamEnd)

/-- An opening bracket. -/
def takeOpen (s : Layout) (t : Token) : Option Layout :=
  s.saveCandidate.bind (fun s =>
    if depthLimit ≤ s.flow then none
    else
      some ({ s with flow := s.flow + 1, candidates := s.candidate :: s.candidates, candidate := none }.allowKey true
        |>.skip 1 |>.emit t))

/-- A closing bracket. -/
def takeClose (s : Layout) (t : Token) : Option Layout :=
  s.dropCandidate.map (fun s =>
    let s := match s.candidates with
      | c :: rest => { s with flow := s.flow - 1, candidate := c, candidates := rest }
      | [] => s
    (s.allowKey false).skip 1 |>.emit t)

/-- A comma between brackets. -/
def takeComma (s : Layout) : Option Layout :=
  s.dropCandidate.map (fun s => (s.allowKey true).skip 1 |>.emit .flowEntry)

/-- The mark of an entry of a block. -/
def takeEntry (s : Layout) : Option Layout :=
  let opened := if s.flow = 0 then
      if s.keyAllowed then s.openBlock s.place.column s.tokens.length .blockSequenceStart else none
    else some s
  (opened.bind dropCandidate).map (fun s => ((s.allowKey true).skip 1).emit .blockEntry)

/-- The mark of a key. -/
def takeKey (s : Layout) : Option Layout :=
  let opened := if s.flow = 0 then
      if s.keyAllowed then s.openBlock s.place.column s.tokens.length .blockMappingStart else none
    else some s
  (opened.bind dropCandidate).map (fun s => (s.allowKey (s.flow == 0)).skip 1 |>.emit .key)

/-- **The mark of a value.**  If a candidate is near enough, it is made a key; otherwise the value belongs to a key
with a mark of its own. -/
def takeValue (s : Layout) : Option Layout :=
  let bare (s : Layout) : Option Layout :=
    (if s.flow = 0 then
        if s.keyAllowed then s.openBlock s.place.column s.tokens.length .blockMappingStart else none
      else some s).map (fun s => s.allowKey (s.flow == 0))
  let ready := match s.candidate with
    | none => bare s
    | some c =>
      if s.isNear c then
        ((s.emitAt c.number .key).openBlock c.column c.number .blockMappingStart).map (fun (s : Layout) =>
          { s with candidate := none }.allowKey false)
      else if c.required then none
      else bare { s with candidate := none }
  ready.map (fun s => (s.skip 1).emit .value)

/-- Whether a name may end before these characters. -/
def endsName (cs : List Char) : Bool :=
  atGap cs || ['?', ':', ',', ']', '}', '%', '@', Char.ofNat 96].contains (cs.headD ' ')

/-- A name after its mark. -/
def takeName (s : Layout) (t : List Char → Token) : Option Layout :=
  s.saveCandidate.bind (fun s =>
    let s := (s.allowKey false).skip 1
    let name := s.place.rest.takeWhile isNameChar
    let s := s.skip name.length
    if name.isEmpty || !endsName s.place.rest then none else some (s.emit (t name)))

/-- Whether a character may stand in a tag. -/
def isTagChar (c : Char) : Bool :=
  isNameChar c ||
    [';', '/', '?', ':', '@', '&', '=', '+', '$', '.', ',', '!', '~', '*', '\'', '(', ')', '[', ']'].contains c

/-- Reads the characters of a tag; escapes by code are read as characters of one byte. -/
def readTagChars : Nat → Place → Option (List Char × Place)
  | 0, p => some ([], p)
  | fuel + 1, p =>
    match p.rest with
    | '%' :: a :: b :: _ =>
      match Text.hexNumber? [a, b] with
      | some n =>
        if n < 0x80 then (readTagChars fuel (p.skip 3)).map (fun r => (Char.ofNat n :: r.1, r.2)) else none
      | none => none
    | '%' :: _ => none
    | c :: _ => if isTagChar c then (readTagChars fuel (p.skip 1)).map (fun r => (c :: r.1, r.2)) else some ([], p)
    | [] => some ([], p)

/-- **Reads a tag**: its handle and the rest of it. -/
def readTag (p : Place) : Option (List Char × List Char × Place) :=
  match p.rest with
  | '!' :: '<' :: _ =>
    match readTagChars (p.rest.length + 1) (p.skip 2) with
    | some (suffix, q) => if suffix.isEmpty || q.rest.head? != some '>' then none else some ([], suffix, q.skip 1)
    | none => none
  | '!' :: rest =>
    let name := rest.takeWhile isNameChar
    if (rest.dropWhile isNameChar).head? = some '!' then
      match readTagChars (p.rest.length + 1) (p.skip (name.length + 2)) with
      | some (suffix, q) => if suffix.isEmpty then none else some ('!' :: name ++ ['!'], suffix, q)
      | none => none
    else
      match readTagChars (p.rest.length + 1) (p.skip 1) with
      | some (suffix, q) => if suffix.isEmpty then some ([], ['!'], q) else some (['!'], suffix, q)
      | none => none
  | _ => none

/-- A tag. -/
def takeTag (s : Layout) : Option Layout :=
  s.saveCandidate.bind (fun s =>
    match readTag s.place with
    | some (handle, suffix, p) =>
      if atGap p.rest then some ((s.allowKey false).moveTo p |>.emit (.tag handle suffix)) else none
    | none => none)

/-- A text in a block of its own. -/
def takeBlock (s : Layout) (style : Style) : Option Layout :=
  s.dropCandidate.bind (fun s =>
    (readBlock (style == .folded) s.indent s.place).map (fun r =>
      (s.allowKey true).moveTo r.2 |>.emit (.scalar style r.1)))

/-- A quoted text. -/
def takeQuoted (s : Layout) (style : Style) : Option Layout :=
  s.saveCandidate.bind (fun s =>
    (readQuoted (style == .double) (s.place.rest.length + 1) [] (s.place.skip 1)).map (fun r =>
      (s.allowKey false).moveTo r.2 |>.emit (.scalar style r.1)))

/-- A plain text. -/
def takePlain (s : Layout) : Option Layout :=
  s.saveCandidate.bind (fun s =>
    (readPlain (0 < s.flow) (s.indent + 1) (s.place.rest.length + 1) false .empty [] s.place).map (fun r =>
      (s.allowKey r.2.1).moveTo r.2.2 |>.emit (.scalar .plain r.1)))

/-- A number of one or two digits. -/
def readVersionNumber (p : Place) : Option (Nat × Place) :=
  let ds := p.rest.takeWhile Text.isDecimalDigit
  if ds.isEmpty || 2 < ds.length then none
  else some (Text.digitsValue ds, p.skip ds.length)

/-- A directive: a word after a percent mark, and what belongs to it. -/
def readDirective (p : Place) : Option (Token × Place) :=
  let word := p.rest.takeWhile isNameChar
  let q := p.skip word.length
  if !atGap q.rest then none
  else
    let q := q.skipWhile isBlank
    if word = ['Y', 'A', 'M', 'L'] then
      match readVersionNumber q with
      | some (major, q) =>
        match q.rest with
        | '.' :: _ => (readVersionNumber (q.skip 1)).map (fun r => (.version major r.1, r.2))
        | _ => none
      | none => none
    else if word = ['T', 'A', 'G'] then
      match q.rest with
      | '!' :: rest =>
        let name := rest.takeWhile isNameChar
        let closed := (rest.dropWhile isNameChar).head? = some '!'
        if !closed && !name.isEmpty then none
        else
          let handle := '!' :: name ++ (if closed then ['!'] else [])
          let q := q.skip handle.length
          if !(q.rest.head?.map isBlank).getD false then none
          else
            let q := q.skipWhile isBlank
            match readTagChars (q.rest.length + 1) q with
            | some (meaning, q) =>
              if meaning.isEmpty || !atGap q.rest then none else some (.tagHandle handle meaning, q)
            | none => none
      | _ => none
    else none

/-- A directive on a line of its own. -/
def takeDirective (s : Layout) : Option Layout :=
  ((s.dedent (-1)).dropCandidate).bind (fun s =>
    match readDirective (s.place.skip 1) with
    | none => none
    | some (t, p) =>
      let p := p.skipWhile isBlank
      let p := if p.rest.head? = some '#' then p.skipWhile (fun c => !isBreak c) else p
      if atLineEnd p.rest then some ((s.allowKey false).moveTo p.skipBreak |>.emit t) else none)

/-- Whether a plain text may begin with these characters. -/
def startsPlain (inFlow : Bool) : List Char → Bool
  | [] => false
  | c :: rest =>
    !(isBlank c || isBreak c ||
        ['-', '?', ':', ',', '[', ']', '{', '}', '#', '&', '*', '!', '|', '>', '\'', '"', '%', '@',
          Char.ofNat 96].contains c) ||
      (c == '-' && !(rest.head?.map isBlank).getD false) ||
      (!inFlow && (c == '?' || c == ':') && !atGap rest)

/-- **Reads one token** at this place, which is not the end. -/
def takeMark (s : Layout) : Option Layout :=
  let inFlow := decide (0 < s.flow)
  match s.place.rest with
  | [] => none
  | c :: rest =>
    if c = '[' then s.takeOpen .flowSequenceStart
    else if c = '{' then s.takeOpen .flowMappingStart
    else if c = ']' then s.takeClose .flowSequenceEnd
    else if c = '}' then s.takeClose .flowMappingEnd
    else if c = ',' then s.takeComma
    else if c = '-' ∧ atGap rest then s.takeEntry
    else if c = '?' ∧ (inFlow || atGap rest) then s.takeKey
    else if c = ':' ∧ (inFlow || atGap rest) then s.takeValue
    else if c = '*' then s.takeName .alias
    else if c = '&' then s.takeName .anchor
    else if c = '!' then s.takeTag
    else if c = '|' ∧ !inFlow then s.takeBlock .literal
    else if c = '>' ∧ !inFlow then s.takeBlock .folded
    else if c = '\'' then s.takeQuoted .single
    else if c = '"' then s.takeQuoted .double
    else if startsPlain inFlow (c :: rest) then s.takePlain
    else none

/-- The layout after a comment that follows a token on its line.  The mark of an entry takes none, nor does a text
after which line breaks were read. -/
def afterToken (s : Layout) : Layout :=
  match s.tokens with
  | .blockEntry :: _ => s
  | .scalar _ _ :: _ => if s.keyAllowed then s else s.moveTo (skipLineComment s.place)
  | _ => s.moveTo (skipLineComment s.place)

/-- **Reads the next token.** -/
def takeToken (s : Layout) : Option Layout :=
  let s := skipFiller (s.place.rest.length + 1) s
  let s := s.dedent s.place.column
  if s.place.rest.isEmpty then s.takeEnd
  else if s.place.column = 0 ∧ s.place.rest.head? = some '%' then s.takeDirective
  else if s.place.atMarks '-' then s.takeDocumentMark .documentStart
  else if s.place.atMarks '.' then s.takeDocumentMark .documentEnd
  else s.takeMark.map afterToken

/-- Reads tokens, `fuel` times, up to the end of the text.  Says whether the end was reached. -/
def run : Nat → Layout → Layout × Bool
  | 0, s => (s, false)
  | fuel + 1, s =>
    if s.tokens.head? = some .streamEnd then (s, true)
    else
      match s.takeToken with
      | none => (s, false)
      | some s => run fuel s

end Layout

/-- **The tokens of a text**, oldest first, and whether they reach to its end. -/
def tokensOf (cs : List Char) : List Token × Bool :=
  let cs := match cs with | '\ufeff' :: rest => rest | cs => cs
  if cs.all isAllowed then
    let r := Layout.run (cs.length + 2) (Layout.start cs)
    (r.1.tokens.reverse, r.2)
  else ([], false)

end Yaml
end LoopNest
