import LoopNest.Toml.Basic
import LoopNest.Toml.Moment
import LoopNest.Text.Decimal
/-!
# Toml.Reader — statements from text

`readStatements` reads a whole file.  A statement ends with its line.  Texts stand between double quotes, where a
backslash starts an escape, or between single quotes, where it does not; three quotes open a text that may run over
lines.
-/
namespace LoopNest
namespace Toml

/-- Whether a character is a blank or a tab. -/
def isBlank (c : Char) : Bool := c == ' ' || c == '\t'

/-- Whether a character breaks a line. -/
def isBreak (c : Char) : Bool := c == '\n' || c == '\r'

/-- **Whether all characters may stand in a file**: of the control characters only tabs and line breaks, and a
carriage return only right before a line feed. -/
def isClean : List Char → Bool
  | [] => true
  | '\r' :: '\n' :: rest => isClean rest
  | c :: rest => (c == '\t' || c == '\n' || (0x20 ≤ c.toNat && c.toNat != 0x7f)) && isClean rest

/-- What follows blanks. -/
def skipBlanks (cs : List Char) : List Char := cs.dropWhile isBlank

/-- What follows blanks, line breaks and comments. -/
def skipFiller (cs : List Char) : List Char :=
  match cs with
  | [] => []
  | c :: rest =>
    if isBlank c || isBreak c then skipFiller rest
    else if c = '#' then skipFiller (rest.dropWhile (· != '\n'))
    else c :: rest
termination_by cs.length
decreasing_by
  · simp
  · simp only [List.length_cons]
    have := (List.dropWhile_suffix (· != '\n') (l := rest)).length_le
    omega

/-- The character that an escape stands for, and how many characters it takes after the backslash. -/
def escape? (cs : List Char) : Option (Char × Nat) :=
  match cs with
  | [] => none
  | e :: rest =>
    if e = '"' ∨ e = '\\' then some (e, 1)
    else if e = 'b' then some ('\x08', 1)
    else if e = 't' then some ('\t', 1)
    else if e = 'n' then some ('\n', 1)
    else if e = 'f' then some ('\x0c', 1)
    else if e = 'r' then some ('\r', 1)
    else if e = 'u' ∧ 4 ≤ rest.length then
      ((Text.hexNumber? (rest.take 4)).bind Text.charOfCode?).map (fun c => (c, 5))
    else if e = 'U' ∧ 8 ≤ rest.length then
      ((Text.hexNumber? (rest.take 8)).bind Text.charOfCode?).map (fun c => (c, 9))
    else none

/-- Puts characters in front of what was read. -/
def prepend (front : List Char) (r : Option (List Char × List Char)) : Option (List Char × List Char) :=
  r.map (fun p => (front ++ p.1, p.2))

/-- **Reads a text on one line** up to and with its closing double quote. -/
def readBasic (cs : List Char) : Option (List Char × List Char) :=
  match cs with
  | [] => none
  | c :: rest =>
    if c = '"' then some ([], rest)
    else if isBreak c then none
    else if c = '\\' then
      match escape? rest with
      | none => none
      | some (e, n) => prepend [e] (readBasic (rest.drop n))
    else prepend [c] (readBasic rest)
termination_by cs.length
decreasing_by all_goals (simp only [List.length_cons, List.length_drop]; omega)

/-- Reads a text on one line up to and with its closing single quote. -/
def readLiteral : List Char → Option (List Char × List Char)
  | [] => none
  | c :: rest =>
    if c = '\'' then some ([], rest)
    else if isBreak c then none
    else prepend [c] (readLiteral rest)

/-- Whether only blanks stand between a backslash and the end of its line. -/
def endsLine (cs : List Char) : Bool := (cs.takeWhile (fun c => isBlank c || isBreak c)).contains '\n'

/-- What a run of quotes means inside a long text: quotes that belong to it, or its end after some that do.  More than
five are an error; six are allowed right after a backslash that stands for itself. -/
inductive QuoteRun where
  | inside (quotes : Nat)
  | closing (quotes : Nat)
  | tooMany

/-- The meaning of a run of `n` quotes. -/
def quoteRun (afterBackslash : Bool) (n : Nat) : QuoteRun :=
  if n < 3 then .inside n
  else if n ≤ 5 ∨ (afterBackslash ∧ n = 6) then .closing (n - 3)
  else .tooMany

theorem length_dropWhile_le {α : Type} (p : α → Bool) (l : List α) : (l.dropWhile p).length ≤ l.length :=
  (List.dropWhile_suffix p).length_le

/-- **Reads a long text** up to and with its closing quotes `mark`; escapes are read if `escapes`.  A backslash at the
end of a line takes away the line break and the blanks that follow. -/
def readLong (mark : Char) (escapes afterBackslash : Bool) (cs : List Char) : Option (List Char × List Char) :=
  match cs with
  | [] => none
  | c :: rest =>
    if c = mark then
      match quoteRun afterBackslash ((rest.takeWhile (· == mark)).length + 1) with
      | .inside n => prepend (List.replicate n mark) (readLong mark escapes false (rest.dropWhile (· == mark)))
      | .closing n => some (List.replicate n mark, rest.dropWhile (· == mark))
      | .tooMany => none
    else if escapes && c == '\\' then
      if endsLine rest then readLong mark escapes false (rest.dropWhile (fun c => isBlank c || isBreak c))
      else
        match escape? rest with
        | none => none
        | some (e, n) => prepend [e] (readLong mark escapes (rest.head? == some '\\') (rest.drop n))
    else prepend [c] (readLong mark escapes false rest)
termination_by cs.length
decreasing_by
  · have := length_dropWhile_le (· == mark) rest
    simp only [List.length_cons]; omega
  · have := length_dropWhile_le (fun c => isBlank c || isBreak c) rest
    simp only [List.length_cons]; omega
  · simp only [List.length_cons, List.length_drop]; omega
  · simp

/-- What follows a line break that comes first. -/
def skipFirstBreak : List Char → List Char
  | '\n' :: rest => rest
  | '\r' :: '\n' :: rest => rest
  | cs => cs

/-- Reads a text whose first quote is still there. -/
def readString : List Char → Option (List Char × List Char)
  | '"' :: '"' :: '"' :: rest => readLong '"' true false (skipFirstBreak rest)
  | '"' :: rest => readBasic rest
  | '\'' :: '\'' :: '\'' :: rest => readLong '\'' false false (skipFirstBreak rest)
  | '\'' :: rest => readLiteral rest
  | _ => none

/-- Reads one key of a path. -/
def readKey : List Char → Option (String × List Char)
  | '"' :: rest => (readBasic rest).map (fun r => (String.ofList r.1, r.2))
  | '\'' :: rest => (readLiteral rest).map (fun r => (String.ofList r.1, r.2))
  | cs =>
    match cs.takeWhile isBare with
    | [] => none
    | k => some (String.ofList k, cs.dropWhile isBare)

/-- Reads a path of at most `fuel` keys, and the blanks around its keys. -/
def readPath : Nat → List Char → Option (Path × List Char)
  | 0, _ => none
  | fuel + 1, cs =>
    match readKey (skipBlanks cs) with
    | none => none
    | some (k, rest) =>
      match skipBlanks rest with
      | '.' :: rest' => (readPath fuel rest').map (fun r => (k :: r.1, r.2))
      | rest' => some ([k], rest')

/-! ### Numbers -/

/-- Whether every underscore follows a digit and the last character is one; letters up to `f` count as digits. -/
def underscoresOk (ok : Bool) : List Char → Bool
  | [] => ok
  | c :: rest => (c != '_' || ok) && underscoresOk (Text.isHexDigit c) rest

/-- Whether a decimal literal starts with a zero that is not alone. -/
def hasLeadingZero : List Char → Bool
  | '0' :: _ :: _ => true
  | '+' :: '0' :: _ :: _ => true
  | '-' :: '0' :: _ :: _ => true
  | _ => false

/-- A literal without its underscores. -/
def withoutUnderscores (cs : List Char) : List Char := cs.filter (· != '_')

/-- The value of a decimal integer literal. -/
def integerOf? (cs : List Char) : Option Int :=
  if underscoresOk false cs && !hasLeadingZero cs then (Text.readSigned (withoutUnderscores cs)).toOption else none

/-- The pieces of a literal between points and exponent letters. -/
def numberPieces (cs : List Char) : List (List Char) :=
  cs.foldr (fun c ps =>
    if c = '.' ∨ c = 'e' ∨ c = 'E' then [] :: ps
    else
      match ps with
      | [] => [[c]]
      | p :: rest => (c :: p) :: rest) [[]]

/-- Whether a digit follows every point. -/
def pointsOk : List Char → Bool
  | [] => true
  | ['.'] => false
  | '.' :: c :: rest => Text.isDecimalDigit c && pointsOk (c :: rest)
  | _ :: rest => pointsOk rest

/-- Whether a literal is a decimal fraction that is not too great. -/
def isDecimal (cs : List Char) : Bool :=
  ((numberPieces cs).filter (· ≠ [])).all (underscoresOk false) &&
    !hasLeadingZero ((numberPieces cs).headD []) && pointsOk cs &&
    ((Text.Decimal.ofLiteral? (withoutUnderscores cs)).bind Text.Decimal.toDouble?).isSome

/-- Whether a character may stand in a decimal number. -/
def isNumberChar (c : Char) : Bool :=
  Text.isDecimalDigit c || c == '_' || c == '.' || c == '+' || c == '-' || c == 'e' || c == 'E'

/-- Whether a character may stand in a moment. -/
def isMomentChar (c : Char) : Bool :=
  Text.isDecimalDigit c || ['-', ':', 'T', 't', ' ', '.', 'Z', 'z', '+'].contains c

/-- Whether the digits at the front belong to a moment. -/
def startsMoment (cs : List Char) : Bool :=
  match cs.dropWhile Text.isDecimalDigit with
  | c :: _ => c == '-' || c == ':'
  | [] => false

/-- A list without the blanks at its end. -/
def trimRight (cs : List Char) : List Char := (cs.reverse.dropWhile (· == ' ')).reverse

/-- Reads digits of a base after their mark. -/
def readBased (isDigit : Char → Bool) (mark : Char) (cs : List Char) : Option (Expr × List Char) :=
  let ds := cs.takeWhile (fun c => isDigit c || c == '_')
  match ds with
  | [] => none
  | d :: _ =>
    if isDigit d && underscoresOk false ds then
      ((Text.readSigned ('0' :: mark :: withoutUnderscores ds)).toOption).map (fun i =>
        (.integer i, cs.dropWhile (fun c => isDigit c || c == '_')))
    else none

/-- Reads a number whose first character is a digit or a sign. -/
def readDecimalNumber (cs : List Char) : Option (Expr × List Char) :=
  let token := cs.takeWhile isNumberChar
  let rest := cs.dropWhile isNumberChar
  if token.any (fun c => c == '.' || c == 'e' || c == 'E') then
    if isDecimal token then some (.decimal token, rest) else none
  else (integerOf? token).map (fun i => (.integer i, rest))

/-- **Reads a number or a moment.** -/
def readNumber (cs : List Char) : Option (Expr × List Char) :=
  match cs with
  | '0' :: 'x' :: rest => readBased Text.isHexDigit 'x' rest
  | '0' :: 'o' :: rest => readBased (fun c => decide ('0' ≤ c ∧ c ≤ '7')) 'o' rest
  | '0' :: 'b' :: rest => readBased (fun c => c == '0' || c == '1') 'b' rest
  | s :: d :: _ =>
    if s = '+' ∨ s = '-' then if Text.isDecimalDigit d then readDecimalNumber cs else none
    else if startsMoment cs then
      let token := trimRight (cs.takeWhile isMomentChar)
      if isMoment token then some (.moment token, cs.dropWhile isMomentChar) else none
    else readDecimalNumber cs
  | cs => readDecimalNumber cs

/-! ### Values and statements -/

/-- The words that stand for values. -/
def readWord : List Char → Option (Expr × List Char)
  | 't' :: 'r' :: 'u' :: 'e' :: rest => some (.boolean true, rest)
  | 'f' :: 'a' :: 'l' :: 's' :: 'e' :: rest => some (.boolean false, rest)
  | 'i' :: 'n' :: 'f' :: rest => some (.decimal ['i', 'n', 'f'], rest)
  | 'n' :: 'a' :: 'n' :: rest => some (.decimal ['n', 'a', 'n'], rest)
  | '+' :: 'i' :: 'n' :: 'f' :: rest => some (.decimal ['i', 'n', 'f'], rest)
  | '+' :: 'n' :: 'a' :: 'n' :: rest => some (.decimal ['n', 'a', 'n'], rest)
  | '-' :: 'i' :: 'n' :: 'f' :: rest => some (.decimal ['-', 'i', 'n', 'f'], rest)
  | '-' :: 'n' :: 'a' :: 'n' :: rest => some (.decimal ['-', 'n', 'a', 'n'], rest)
  | _ => none

/-- Whether a character starts a number or a moment. -/
def startsNumber (c : Char) : Bool := Text.isDecimalDigit c || c == '+' || c == '-'

mutual

/-- Reads a value. -/
def readExpr : Nat → List Char → Option (Expr × List Char)
  | 0, _ => none
  | fuel + 1, cs =>
    match skipBlanks cs with
    | [] => none
    | c :: rest =>
      if c = '"' ∨ c = '\'' then (readString (c :: rest)).map (fun r => (.text (String.ofList r.1), r.2))
      else if c = '[' then (readItems fuel rest).map (fun r => (.array r.1, r.2))
      else if c = '{' then
        match skipBlanks rest with
        | '}' :: rest' => some (.inline [], rest')
        | rest' => (readEntries fuel rest').map (fun r => (.inline r.1, r.2))
      else
        match readWord (c :: rest) with
        | some r => some r
        | none => if startsNumber c then readNumber (c :: rest) else none

/-- Reads items up to and with the bracket that closes them; a comma may stand after the last. -/
def readItems : Nat → List Char → Option (List Expr × List Char)
  | 0, _ => none
  | fuel + 1, cs =>
    match skipFiller cs with
    | ']' :: rest => some ([], rest)
    | cs' =>
      match readExpr fuel cs' with
      | none => none
      | some (v, rest) =>
        match skipFiller rest with
        | ',' :: rest' => (readItems fuel rest').map (fun r => (v :: r.1, r.2))
        | ']' :: rest' => some ([v], rest')
        | _ => none

/-- Reads entries up to and with the brace that closes them, all on one line. -/
def readEntries : Nat → List Char → Option (List (Path × Expr) × List Char)
  | 0, _ => none
  | fuel + 1, cs =>
    match readPath (cs.length + 1) cs with
    | some (path, '=' :: rest) =>
      match readExpr fuel rest with
      | none => none
      | some (v, rest) =>
        match skipBlanks rest with
        | ',' :: rest' => (readEntries fuel rest').map (fun r => ((path, v) :: r.1, r.2))
        | '}' :: rest' => some ([(path, v)], rest')
        | _ => none
    | _ => none

end

/-- **Reads one statement**, without the end of its line. -/
def readStatement (cs : List Char) : Option (Statement × List Char) :=
  match cs with
  | '[' :: '[' :: rest =>
    match readPath (rest.length + 1) rest with
    | some (path, ']' :: ']' :: rest') => some (.element path, rest')
    | _ => none
  | '[' :: rest =>
    match readPath (rest.length + 1) rest with
    | some (path, ']' :: rest') => some (.table path, rest')
    | _ => none
  | cs =>
    match readPath (cs.length + 1) cs with
    | some (path, '=' :: rest) => (readExpr (2 * rest.length + 2) rest).map (fun r => (.assign path r.1, r.2))
    | _ => none

/-- Whether a statement may end here. -/
def atLineEnd (cs : List Char) : Bool :=
  match skipBlanks cs with
  | [] => true
  | c :: _ => c == '#' || isBreak c

/-- Reads statements, `fuel` of them at most. -/
def readAll : Nat → List Char → Option (List Statement)
  | 0, _ => none
  | fuel + 1, cs =>
    match skipFiller cs with
    | [] => some []
    | cs' =>
      match readStatement cs' with
      | none => none
      | some (s, rest) => if atLineEnd rest then (readAll fuel rest).map (s :: ·) else none

/-- A text without the mark of its encoding that may stand first. -/
def skipMark : List Char → List Char
  | '\ufeff' :: rest => rest
  | cs => cs

/-- **Reads a file.** -/
def readStatements (text : String) : Option (List Statement) :=
  let cs := skipMark text.toList
  if isClean cs then readAll (cs.length + 1) cs else none

end Toml
end LoopNest
