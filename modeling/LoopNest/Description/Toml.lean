import LoopNest.Description.Basic
import LoopNest.Json.Reader
import LoopNest.Toml.Reader
import LoopNest.Toml.Document
/-!
# Description.Toml — descriptions as table files

`writeToml` writes a description, `readToml` reads one.  Keys are read in any case.  Keys that mean nothing are
refused all together, after everything else was found to be right.
-/
namespace LoopNest
namespace Description

/-! ### Writing -/

/-- A line with a key and a value, indented. -/
def tomlLine (indent : Nat) (key : String) (value : List Char) : List Char :=
  List.replicate indent ' ' ++ key.toList ++ [' ', '=', ' '] ++ value ++ ['\n']

/-- Texts between brackets. -/
def tomlTexts (values : List String) : List Char :=
  '[' :: List.intercalate [',', ' '] (values.map Toml.quotedText) ++ [']']

/-- A line with a list of texts, or nothing when it is left out. -/
def tomlTextsLine (indent : Nat) (key : String) : Option (List String) → List Char
  | none => []
  | some values => tomlLine indent key (tomlTexts values)

/-- A line that says that a list of tables is empty. -/
def tomlEmptyLine {α : Type} (indent : Nat) (key : String) : Option (List α) → List Char
  | some [] => tomlLine indent key ['[', ']']
  | _ => []

/-- The header of an element of a list of tables, after an empty line. -/
def tomlHeader (indent : Nat) (path : String) : List Char :=
  '\n' :: List.replicate indent ' ' ++ '[' :: '[' :: path.toList ++ [']', ']', '\n']

/-- A step. -/
def tomlStep (s : Step) : List Char :=
  tomlHeader 2 "partition.steps" ++ tomlLine 4 "kind" (Toml.quotedText s.kind.name) ++
    tomlLine 4 "size" (Text.signedDigits s.size) ++
    if s.leader = "" then [] else tomlLine 4 "leader" (Toml.quotedText s.leader)

/-- A tensor. -/
def tomlTensor (t : Tensor) : List Char :=
  tomlHeader 0 "tensor" ++ tomlLine 2 "name" (Toml.quotedText t.root) ++ tomlTextsLine 2 "ranks" t.declared

/-- A rule. -/
def tomlRule (r : RuleEntry) : List Char :=
  tomlHeader 0 "partition" ++ tomlLine 2 "rank" (Toml.quotedText r.rank) ++ tomlEmptyLine 2 "steps" r.steps ++
    (r.steps.getD []).flatMap tomlStep

/-- **Writes a description.** -/
def writeToml (d : Description) : String :=
  String.ofList (tomlLine 0 "output" (Toml.quotedText d.output) ++ tomlTextsLine 0 "loop_order" d.loops ++
    tomlEmptyLine 0 "tensor" d.tensors ++ tomlEmptyLine 0 "partition" d.rules ++
    (d.tensors.getD []).flatMap tomlTensor ++ (d.rules.getD []).flatMap tomlRule)

/-! ### Reading -/

/-- A value of the wanted kind, and the paths of the keys that were understood on the way. -/
abbrev Understood (α : Type) := Option (α × List Toml.Path)

/-- A text. -/
def tomlText? : Toml.Value → Option String
  | .text s => some s
  | _ => none

/-- The items of a list, of tables or of anything. -/
def tomlItems? : Toml.Value → Option (List Toml.Value)
  | .array items => some items
  | .tables elements => some (elements.map .table)
  | _ => none

/-- A list of texts. -/
def tomlTexts? (v : Toml.Value) : Option (List String) := (tomlItems? v).bind (fun items => items.mapM tomlText?)

/-- Items that are all understood. -/
def tomlEach {α : Type} (read : Toml.Value → Understood α) : List Toml.Value → Understood (List α)
  | [] => some ([], [])
  | v :: vs =>
    match read v with
    | none => none
    | some (a, ks) => (tomlEach read vs).map (fun r => (a :: r.1, ks ++ r.2))

/-- A list whose items are all understood. -/
def tomlList {α : Type} (read : Toml.Value → Understood α) (v : Toml.Value) : Understood (List α) :=
  (tomlItems? v).bind (tomlEach read)

/-- Entries of a table read one after the other; an entry that means nothing is passed over. -/
def tomlEntries {α : Type} (set : α → String → Toml.Value → Option (Understood α)) (here : Toml.Path) :
    α → Toml.Entries → Understood α
  | a, [] => some (a, [])
  | a, (k, v) :: rest =>
    match set a k v with
    | none => tomlEntries set here a rest
    | some none => none
    | some (some (b, ks)) => (tomlEntries set here b rest).map (fun r => (r.1, (here ++ [k]) :: ks ++ r.2))

/-- A table read entry by entry. -/
def tomlTable {α : Type} (set : α → String → Toml.Value → Option (Understood α)) (here : Toml.Path) (fresh : α) :
    Toml.Value → Understood α
  | .table entries => tomlEntries set here fresh entries
  | _ => none

/-- Something understood without further keys. -/
def plainly {α β : Type} (f : α → β) (a : Option α) : Option (Understood β) := some (a.map (fun x => (f x, [])))

/-- Sets one entry of a step. -/
def setTomlStep (s : Step) (key : String) (v : Toml.Value) : Option (Understood Step) :=
  if Json.sameName key "kind" then plainly (fun k => { s with kind := ⟨k⟩ }) (tomlText? v)
  else if Json.sameName key "size" then
    plainly (fun n => { s with size := n }) (match v with | .integer i => some i | _ => none)
  else if Json.sameName key "leader" then plainly (fun l => { s with leader := l }) (tomlText? v)
  else none

/-- Sets one entry of a tensor. -/
def setTomlTensor (t : Tensor) (key : String) (v : Toml.Value) : Option (Understood Tensor) :=
  if Json.sameName key "name" then plainly (fun r => { t with root := r }) (tomlText? v)
  else if Json.sameName key "ranks" then plainly (fun l => { t with declared := some l }) (tomlTexts? v)
  else none

/-- Sets one entry of a rule of the list at `here`. -/
def setTomlRule (here : Toml.Path) (r : RuleEntry) (key : String) (v : Toml.Value) : Option (Understood RuleEntry) :=
  if Json.sameName key "rank" then plainly (fun k => { r with rank := k }) (tomlText? v)
  else if Json.sameName key "steps" then
    some ((tomlList (tomlTable setTomlStep (here ++ [key]) ⟨⟨""⟩, 0, ""⟩) v).map (fun l =>
      ({ r with steps := some l.1 }, l.2)))
  else none

/-- Sets one entry of a description. -/
def setTomlEntry (d : Description) (key : String) (v : Toml.Value) : Option (Understood Description) :=
  if Json.sameName key "output" then plainly (fun o => { d with output := o }) (tomlText? v)
  else if Json.sameName key "loop_order" then plainly (fun l => { d with loops := some l }) (tomlTexts? v)
  else if Json.sameName key "tensor" then
    some ((tomlList (tomlTable setTomlTensor [key] ⟨"", none⟩) v).map (fun l => ({ d with tensors := some l.1 }, l.2)))
  else if Json.sameName key "partition" then
    some ((tomlList (tomlTable (setTomlRule [key]) [key] ⟨"", none⟩) v).map (fun l =>
      ({ d with rules := some l.1 }, l.2)))
  else none

/-- Why a table file gives no description. -/
inductive TomlError where
  | malformed
  | unknownKeys (keys : List Toml.Path)

/-- **Reads a description.** -/
def readToml (s : String) : Except TomlError Description :=
  match (Toml.readStatements s).bind Toml.Document.ofStatements with
  | none => .error .malformed
  | some doc =>
    match tomlEntries setTomlEntry [] empty doc.root with
    | none => .error .malformed
    | some (d, understood) =>
      match doc.keys.filter (fun k => !understood.contains k) with
      | [] => .ok d
      | unknown => .error (.unknownKeys unknown)

end Description
end LoopNest
