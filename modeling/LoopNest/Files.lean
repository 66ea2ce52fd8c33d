import LoopNest.Problem
/-!
# Files — a tree of files

`Files` holds the files and directories below a working directory.  Paths are walked part by part: every part but the
last has to be a directory, a point stands for the directory itself and two points for the one around it.
-/
namespace LoopNest

/-- A path as its parts, from the working directory on. -/
abbrev Location := List String

/-- **The files below a working directory.**  A directory is there if it is listed, or if something below it is. -/
structure Files where
  files : List (Location × String)
  directories : List Location
deriving Repr

/-- Where a path leads. -/
inductive Walk where
  | reached (l : Location)
  /-- A part is not there. -/
  | missing
  /-- A part that has to be a directory is a file. -/
  | blocked
deriving DecidableEq, Repr

namespace Files

/-- The parts of a path. -/
def partsOf (path : String) : List String := path.splitOn "/"

/-- What a file at a location holds. -/
def content? (fs : Files) (l : Location) : Option String := (fs.files.find? (fun f => f.1 == l)).map Prod.snd

/-- Whether there is a directory at a location. -/
def isDirectory (fs : Files) (l : Location) : Bool :=
  l.isEmpty || fs.directories.any (fun d => l.isPrefixOf d) || fs.files.any (fun f => l.isPrefixOf f.1.dropLast)

/-- Whether there is anything at a location. -/
def isThere (fs : Files) (l : Location) : Bool := (fs.content? l).isSome || fs.isDirectory l

/-- Walks along parts. -/
def walk (fs : Files) : Location → List String → Walk
  | here, [] => .reached here
  | here, part :: rest =>
    if fs.isDirectory here then
      if part = "" ∨ part = "." then walk fs here rest
      else if part = ".." then if here.isEmpty then .missing else walk fs here.dropLast rest
      else if fs.isThere (here ++ [part]) then walk fs (here ++ [part]) rest
      else .missing
    else .blocked

/-- Whether a path begins at the root of all files, or is none at all. -/
def isElsewhere (path : String) : Bool := path.toList.head? = some '/' || path = ""

/-- **Reads a file.** -/
def read (fs : Files) (path : String) : Except Problem String :=
  if isElsewhere path then .error (.noFile path)
  else
    match fs.walk [] (partsOf path) with
    | .missing => .error (.noFile path)
    | .blocked => .error (.readFailed path)
    | .reached l =>
      match fs.content? l with
      | some text => .ok text
      | none => .error (.readFailed path)

/-- The files with another content at a location. -/
def put (fs : Files) (l : Location) (text : String) : Files :=
  if (fs.content? l).isSome then
    { fs with files := fs.files.map (fun f => if f.1 == l then (l, text) else f) }
  else { fs with files := fs.files ++ [(l, text)] }

/-- **Writes a file**; the directory around it has to be there. -/
def write (fs : Files) (path text : String) : Except Problem Files :=
  let failed : Except Problem Files := .error (.writeFailed path)
  if isElsewhere path then failed
  else
    match (partsOf path).reverse with
    | [] => failed
    | last :: before =>
      match fs.walk [] before.reverse with
      | .reached l =>
        if last = "" ∨ last = "." ∨ last = ".." ∨ !fs.isDirectory l ∨ fs.isDirectory (l ++ [last]) then failed
        else .ok (fs.put (l ++ [last]) text)
      | _ => failed

/-- The location that a path names by itself, without points. -/
def locationOf (path : String) : Location := (partsOf path).filter (fun part => part != "" && part != ".")

/-- Files from paths and what they hold; what holds nothing is a directory. -/
def ofList (entries : List (String × Option String)) : Files where
  files := entries.filterMap (fun e => e.2.map (fun text => (locationOf e.1, text)))
  directories := entries.filterMap (fun e => if e.2.isNone then some (locationOf e.1) else none)

/-- The files that are new or hold something else than before, by path. -/
def changesSince (fs before : Files) : List (String × String) :=
  (fs.files.filter (fun f => before.content? f.1 != some f.2)).map (fun f => ("/".intercalate f.1, f.2))

end Files
end LoopNest
