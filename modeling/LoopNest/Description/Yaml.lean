import LoopNest.Description.Basic
import LoopNest.Yaml.Printer
/-!
# Description.Yaml — descriptions as indented documents

`writeYaml` writes a description, `readYaml?` reads one.  Names of fields are read as they stand; a field with another
name, or one that comes twice, is refused.  What is given as nothing is left as it is.
-/
namespace LoopNest
namespace Description

/-! ### Writing -/

/-- Blanks. -/
def yamlIndent (n : Nat) : List Char := List.replicate n ' '

/-- A value at the end of a line.  A block whose last line is ended already needs no further line break. -/
def yamlEndLine (value : List Char) : List Char :=
  if (value.getLast?.map Yaml.isBreak).getD false then value else value ++ ['\n']

/-- A field of a record: what leads up to it on its line, its name and its value. -/
def yamlField (lead : List Char) (name : String) (value : List Char) : List Char :=
  lead ++ name.toList ++ [':', ' '] ++ yamlEndLine value

/-- A list below a field: the lines of its items, or empty brackets. -/
def yamlList {α : Type} (lead : List Char) (name : String) (item : α → List Char) (l : List α) : List Char :=
  if l.isEmpty then yamlField lead name ['[', ']'] else lead ++ name.toList ++ ':' :: '\n' :: l.flatMap item

/-- What leads up to an item of a list. -/
def yamlDash (indent : Nat) : List Char := yamlIndent indent ++ ['-', ' ']

/-- A text as an item of a list. -/
def yamlTextItem (indent : Nat) (s : String) : List Char :=
  yamlDash indent ++ yamlEndLine (Yaml.writeText (indent + 2) s)

/-- A step. -/
def yamlStep (s : Step) : List Char :=
  yamlField (yamlDash 6) "kind" (Yaml.writeText 10 s.kind.name) ++
    yamlField (yamlIndent 8) "size" (Text.signedDigits s.size) ++
    if s.leader = "" then [] else yamlField (yamlIndent 8) "leader" (Yaml.writeText 10 s.leader)

/-- A tensor. -/
def yamlTensor (t : Tensor) : List Char :=
  yamlField (yamlDash 2) "name" (Yaml.writeText 6 t.root) ++ yamlList (yamlIndent 4) "ranks" (yamlTextItem 6) t.ranks

/-- A rule. -/
def yamlRule (r : RuleEntry) : List Char :=
  yamlField (yamlDash 2) "rank" (Yaml.writeText 6 r.rank) ++
    yamlList (yamlIndent 4) "steps" yamlStep (r.steps.getD [])

/-- **Writes a description.** -/
def writeYaml (d : Description) : String :=
  String.ofList (yamlField [] "output" (Yaml.writeText 2 d.output) ++
    yamlList [] "loop_order" (yamlTextItem 2) (d.loops.getD []) ++
    yamlList [] "tensors" yamlTensor (d.tensors.getD []) ++ yamlList [] "partitions" yamlRule (d.rules.getD []))

/-! ### Reading -/

/-- Something given, or nothing; `none` on the outside if it is not what is wanted. -/
abbrev Given (α : Type) := Option (Option α)

open Yaml (Tree meaning?)

/-- A text. -/
def yamlText (t : Tree) : Given String :=
  match t.actual? with
  | some (.scalar style tag text) =>
    match meaning? style tag text with
    | some .null => some none
    | some _ => some (some (String.ofList text))
    | none => none
  | _ => none

/-- Whether a tree is nothing. -/
def yamlIsNull : Tree → Bool
  | .scalar style tag text => meaning? style tag text == some .null
  | _ => false

/-- The integer that a number is cut to.  Below the signed words, and at the first integer above them, it is the
least. -/
def yamlCut (negative : Bool) (n : Nat) : Option Int :=
  let least : Int := -(Text.signedBound : Int)
  if negative then some (max (-(n : Int)) least)
  else if n < Text.signedBound then some (n : Int)
  else if n = Text.signedBound then some least
  else none

/-- An integer.  A fraction is cut. -/
def yamlInteger (t : Tree) : Given Int :=
  match t.actual? with
  | some (.scalar style tag text) =>
    match meaning? style tag text with
    | some .null => some none
    | some (.integer i) => if i < (Text.signedBound : Int) then some (some i) else none
    | some (.decimal d) =>
      (d.toDouble?.bind (fun x => yamlCut d.negative (Text.Decimal.wholePart x.1 x.2))).map some
    | some (.infinity true) => some (some (-(Text.signedBound : Int)))
    | _ => none
  | _ => none

/-- Items that are all what is wanted; those that are nothing are left out. -/
def yamlItems {α : Type} (read : Tree → Given α) : List Tree → Option (List α)
  | [] => some []
  | t :: ts =>
    match read t with
    | none => none
    | some a => (yamlItems read ts).map (fun as => a.toList ++ as)

/-- A list. -/
def yamlSequence {α : Type} (read : Tree → Given α) (t : Tree) : Given (List α) :=
  match t.actual? with
  | some (.sequence items) => (yamlItems read items).map some
  | some u => if yamlIsNull u then some none else none
  | none => none

/-! ### Fields -/

/-- Whether two keys are written alike. -/
def yamlSameKey : Tree → Tree → Bool
  | .scalar _ _ a, .scalar _ _ b => a == b
  | .alias a _, .alias b _ => a == b
  | .sequence _, .sequence _ => true
  | .mapping _, .mapping _ => true
  | _, _ => false

/-- Whether no two keys are written alike. -/
def yamlKeysDiffer : List (Tree × Tree) → Bool
  | [] => true
  | (k, _) :: rest => !rest.any (fun e => yamlSameKey k e.1) && yamlKeysDiffer rest

/-- Whether a key merges mappings. -/
def yamlIsMerge : Tree → Bool
  | .scalar style tag text => meaning? style tag text == some .merge
  | _ => false

/-- The fields that the entries of a mapping give themselves; those whose name is nothing are left out. -/
def yamlOwnFields : List (Tree × Tree) → Option (List (String × Tree))
  | [] => some []
  | (k, v) :: rest =>
    if yamlIsMerge k then yamlOwnFields rest
    else
      match yamlText k with
      | none => none
      | some none => yamlOwnFields rest
      | some (some name) => (yamlOwnFields rest).map (fun fs => (name, v) :: fs)

/-- The fields of a list that are not yet there, each once. -/
def yamlNewFields (there : List (String × Tree)) : List (String × Tree) → List (String × Tree)
  | [] => there
  | f :: fs => yamlNewFields (if there.any (fun g => g.1 == f.1) then there else there ++ [f]) fs

mutual

/-- **The fields of a mapping**, after those in `there`: its own, then those merged into it.  A field that is there
already is left out. -/
def yamlFields : Nat → List (String × Tree) → Tree → Option (List (String × Tree))
  | 0, _, _ => none
  | fuel + 1, there, t =>
    match t.actual? with
    | some (.mapping entries) =>
      if yamlKeysDiffer entries then
        match yamlOwnFields entries with
        | none => none
        | some own =>
          let fields := yamlNewFields there own
          match entries.find? (fun e => yamlIsMerge e.1) with
          | none => some fields
          | some (_, v) => yamlMerged fuel fields v
      else none
    | _ => none

/-- The fields merged from a mapping, or from each of a list of mappings. -/
def yamlMerged : Nat → List (String × Tree) → Tree → Option (List (String × Tree))
  | 0, _, _ => none
  | fuel + 1, there, .sequence items => items.foldlM (fun fs t => yamlFields fuel fs t) there
  | fuel + 1, there, t => yamlFields fuel there t

end

/-- How deep mappings may be merged. -/
def yamlMergeDepth : Nat := 10000

/-- Whether no two own fields of a mapping have one name. -/
def yamlNamesDiffer (fields : List (String × Tree)) : Bool := decide ((fields.map Prod.fst).Nodup)

/-- Sets fields one after the other. -/
def yamlSetFields {α : Type} (set : α → String → Tree → Option α) : α → List (String × Tree) → Option α
  | a, [] => some a
  | a, (name, v) :: rest => (set a name v).bind (fun b => yamlSetFields set b rest)

/-- **A record given by a mapping.** -/
def yamlRecord {α : Type} (set : α → String → Tree → Option α) (fresh : α) (t : Tree) : Given α :=
  match t.actual? with
  | some (.mapping entries) =>
    match yamlOwnFields entries with
    | none => none
    | some own =>
      if yamlKeysDiffer entries && yamlNamesDiffer own then
        let fields := match entries.find? (fun e => yamlIsMerge e.1) with
          | none => some own
          | some (_, v) => yamlMerged yamlMergeDepth own v
        (fields.bind (yamlSetFields set fresh)).map some
      else none
  | some u => if yamlIsNull u then some none else none
  | none => none

/-- Sets one field of a step. -/
def setYamlStep (s : Step) (name : String) (t : Tree) : Option Step :=
  if name = "kind" then (yamlText t).map (fun k => { s with kind := ⟨k.getD s.kind.name⟩ })
  else if name = "size" then (yamlInteger t).map (fun n => { s with size := n.getD s.size })
  else if name = "leader" then (yamlText t).map (fun l => { s with leader := l.getD s.leader })
  else none

/-- Sets one field of a tensor. -/
def setYamlTensor (a : Tensor) (name : String) (t : Tree) : Option Tensor :=
  if name = "name" then (yamlText t).map (fun r => { a with root := r.getD a.root })
  else if name = "ranks" then (yamlSequence yamlText t).map (fun l => { a with declared := l })
  else none

/-- Sets one field of a rule. -/
def setYamlRule (r : RuleEntry) (name : String) (t : Tree) : Option RuleEntry :=
  if name = "rank" then (yamlText t).map (fun k => { r with rank := k.getD r.rank })
  else if name = "steps" then
    (yamlSequence (yamlRecord setYamlStep ⟨⟨""⟩, 0, ""⟩) t).map (fun l => { r with steps := l })
  else none

/-- Sets one field of a description. -/
def setYamlField (d : Description) (name : String) (t : Tree) : Option Description :=
  if name = "output" then (yamlText t).map (fun o => { d with output := o.getD d.output })
  else if name = "loop_order" then (yamlSequence yamlText t).map (fun l => { d with loops := l })
  else if name = "tensors" then
    (yamlSequence (yamlRecord setYamlTensor ⟨"", none⟩) t).map (fun l => { d with tensors := l })
  else if name = "partitions" then
    (yamlSequence (yamlRecord setYamlRule ⟨"", none⟩) t).map (fun l => { d with rules := l })
  else none

/-- The description that a tree gives. -/
def ofYaml? (t : Tree) : Option Description := (yamlRecord setYamlField empty t).map (fun d => d.getD empty)

/-- **Reads a description** from the first document of a text. -/
def readYaml? (s : String) : Option Description :=
  match Yaml.readTree s.toList with
  | none => none
  | some none => some empty
  | some (some t) => ofYaml? t

end Description
end LoopNest
