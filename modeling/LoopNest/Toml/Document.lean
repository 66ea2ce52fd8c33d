import LoopNest.Toml.Basic
/-!
# Toml.Document — tables from statements

A `Document` is built statement by statement.  Every table is known by its path; inside a list of tables the last
element is meant.  A key is defined once, with two exceptions: tables that only came up as part of a longer path
(`soft`) may be defined once more, and a key is redefined by a list or when it was last defined as one (`lists`).
-/
namespace LoopNest
namespace Toml

/-- **A value of a document.** -/
inductive Value where
  | text (s : String)
  | integer (i : Int)
  | boolean (b : Bool)
  | decimal (literal : List Char)
  | moment (literal : List Char)
  | array (items : List Value)
  | table (entries : List (String × Value))
  | tables (elements : List (List (String × Value)))

/-- The entries of a table. -/
abbrev Entries := List (String × Value)

/-- **A document under construction.** -/
structure Document where
  /-- The table that holds everything. -/
  root : Entries
  /-- Paths that are known as lists. -/
  lists : List Path
  /-- Paths of tables that only came up as part of a longer path. -/
  soft : List Path
  /-- All keys, in the order of the file. -/
  keys : List Path

namespace Document

/-- The document of an empty file. -/
def empty : Document := ⟨[], [], [], []⟩

/-- The entries with a value for a key, in the place of an older one. -/
def setEntry (entries : Entries) (key : String) (v : Value) : Entries :=
  if entries.any (fun e => e.1 == key) then entries.map (fun e => if e.1 == key then (key, v) else e)
  else entries ++ [(key, v)]

/-- Changes the table at a path; inside a list of tables, its last element. -/
def changeAt (f : Entries → Option Entries) : Path → Entries → Option Entries
  | [], entries => f entries
  | k :: rest, entries =>
    match List.lookup k entries with
    | some (.table inner) => (changeAt f rest inner).map (fun t => setEntry entries k (.table t))
    | some (.tables elements) =>
      match elements.reverse with
      | last :: before =>
        (changeAt f rest last).map (fun t => setEntry entries k (.tables (before.reverse ++ [t])))
      | [] => none
    | _ => none

/-- The table at a path. -/
def entriesAt : Path → Entries → Option Entries
  | [], entries => some entries
  | k :: rest, entries =>
    match List.lookup k entries with
    | some (.table inner) => entriesAt rest inner
    | some (.tables elements) => elements.getLast?.bind (entriesAt rest)
    | _ => none

/-- Marks a path as one that only came up as part of a longer one. -/
def soften (d : Document) (path : Path) : Document := { d with soft := path :: d.soft }

/-- Takes this mark away. -/
def harden (d : Document) (path : Path) : Document := { d with soft := d.soft.filter (· ≠ path) }

/-- The path under which the kind of a key is noted.  A key without letters is noted with its table. -/
def notePath (context : Path) (key : String) : Path :=
  if key = "" ∧ context ≠ [] then context else context ++ [key]

/-- Notes whether a path is known as a list. -/
def note (d : Document) (path : Path) (isList : Bool) : Document :=
  { d with lists := if isList then path :: d.lists else d.lists.filter (· ≠ path) }

/-- Notes a key of the file. -/
def addKey (d : Document) (path : Path) : Document := { d with keys := d.keys ++ [path] }

/-- **Defines a key** of the table at `context`. -/
def define (d : Document) (context : Path) (key : String) (v : Value) : Option Document :=
  match entriesAt context d.root with
  | none => none
  | some entries =>
    let path := context ++ [key]
    if entries.any (fun e => e.1 == key) then
      if path ∈ d.lists then
        (changeAt (fun t => some (setEntry t key v)) context d.root).map (fun r => { d.harden path with root := r })
      else if path ∈ d.soft then some (d.harden path)
      else none
    else (changeAt (fun t => some (setEntry t key v)) context d.root).map (fun r => { d with root := r })

/-- Makes sure that there are tables on the way to a path that goes on from `done`. -/
def pave (d : Document) (done : Path) : Path → Option Document
  | [] => some d
  | k :: rest =>
    match entriesAt done d.root with
    | none => none
    | some entries =>
      match List.lookup k entries with
      | none =>
        (changeAt (fun t => some (setEntry t k (.table []))) done d.root).bind (fun r =>
          pave ({ d with root := r }.soften (done ++ [k])) (done ++ [k]) rest)
      | some (.table _) => pave d (done ++ [k]) rest
      | some (.tables _) => pave d (done ++ [k]) rest
      | some _ => none

/-- **Opens the table at a path**, or one more element of the list of tables there. -/
def openTable (d : Document) (path : Path) (element : Bool) : Option Document :=
  match path.reverse with
  | [] => none
  | key :: before =>
    let context := before.reverse
    match d.pave [] context with
    | none => none
    | some d =>
      if element then
        (changeAt (fun t =>
          match List.lookup key t with
          | none => some (setEntry t key (.tables [[]]))
          | some (.tables elements) => some (setEntry t key (.tables (elements ++ [[]])))
          | some _ => none) context d.root).map (fun r => { d with root := r })
      else d.define context key (.table [])

/-- Opens the tables of a path with points, from `context` on; gives the path of the last. -/
def openParents (d : Document) (context : Path) : Path → Option (Document × Path)
  | [] => some (d, context)
  | k :: rest =>
    match (d.soften (context ++ [k])).openTable (context ++ [k]) false with
    | none => none
    | some d => d.openParents (context ++ [k]) rest

/-- Whether a value is a list. -/
def isList : Value → Bool
  | .array _ => true
  | _ => false

/-- The entries with a value at a path, tables made on the way. -/
def setAt (v : Value) : Path → String → Entries → Option Entries
  | [], key, entries => some (setEntry entries key v)
  | k :: rest, key, entries =>
    match List.lookup k entries with
    | none => (setAt v rest key []).map (fun t => setEntry entries k (.table t))
    | some (.table inner) => (setAt v rest key inner).map (fun t => setEntry entries k (.table t))
    | some _ => none

mutual

/-- **The value of an expression** for a key of the table at `context`; inline tables are opened in the document while
their entries are read. -/
def evaluate (context : Path) (key : String) (inList : Bool) : Expr → Document → Option (Value × Document)
  | .text s, d => some (.text s, d)
  | .integer i, d => some (.integer i, d)
  | .boolean b, d => some (.boolean b, d)
  | .decimal l, d => some (.decimal l, d)
  | .moment l, d => some (.moment l, d)
  | .array items, d =>
    (evaluateItems context key items (d.note (notePath context key) true)).map (fun r => (.array r.1, r.2))
  | .inline entries, d =>
    match (d.soften (context ++ [key])).openTable (context ++ [key]) inList with
    | none => none
    | some d => (evaluateEntries (context ++ [key]) entries [] d).map (fun r => (.table r.1, r.2))

/-- The values of items. -/
def evaluateItems (context : Path) (key : String) : List Expr → Document → Option (List Value × Document)
  | [], d => some ([], d)
  | e :: es, d =>
    match evaluate context key true e d with
    | none => none
    | some (v, d) => (evaluateItems context key es d).map (fun r => (v :: r.1, r.2))

/-- The entries of an inline table after those of `made`. -/
def evaluateEntries (here : Path) : List (Path × Expr) → Entries → Document → Option (Entries × Document)
  | [], made, d => some (made, d)
  | (path, e) :: es, made, d =>
    match path.reverse with
    | [] => none
    | key :: before =>
      match d.openParents here before.reverse with
      | none => none
      | some (d, context) =>
        match evaluate context key false e (d.addKey (context ++ [key])) with
        | none => none
        | some (v, d) =>
          match d.define context key v with
          | none => none
          | some d =>
            match setAt v before.reverse key made with
            | none => none
            | some made => evaluateEntries here es made (d.note (notePath context key) (isList v))

end

/-- **Adds a statement** that stands under the header `context`; gives the header for the next. -/
def addStatement (d : Document) (context : Path) : Statement → Option (Document × Path)
  | .table path => (d.openTable path false).map (fun d => ((d.note path false).addKey path, path))
  | .element path => (d.openTable path true).map (fun d => ((d.note path false).addKey path, path))
  | .assign path e =>
    match path.reverse with
    | [] => none
    | key :: before =>
      match d.openParents context before.reverse with
      | none => none
      | some (d, inner) =>
        match evaluate inner key false e (d.addKey (inner ++ [key])) with
        | none => none
        | some (v, d) =>
          (d.define inner key v).map (fun d => (d.note (notePath inner key) (isList v), context))

/-- Adds statements one after the other. -/
def addStatements (d : Document) (context : Path) : List Statement → Option Document
  | [] => some d
  | s :: rest =>
    match d.addStatement context s with
    | none => none
    | some (d, context) => d.addStatements context rest

/-- **The document of a file.** -/
def ofStatements (statements : List Statement) : Option Document := empty.addStatements [] statements

end Document
end Toml
end LoopNest
