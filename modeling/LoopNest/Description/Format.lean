import LoopNest.Identifier
import LoopNest.Description.Json
import LoopNest.Description.Toml
import LoopNest.Description.Yaml
/-!
# Description.Format — the formats of descriptions

A description is written in one of three formats.  The format is named, or follows from the extension of a path.
-/
namespace LoopNest

/-- **A format of descriptions.** -/
inductive Format where
  | toml
  | yaml
  | json
deriving DecidableEq, Repr

namespace Format

/-- All formats. -/
def all : List Format := [toml, yaml, json]

/-- The name of a format. -/
def name : Format → String
  | toml => "toml"
  | yaml => "yaml"
  | json => "json"

/-- The format with a name. -/
def ofName (name : String) : Except Problem Format :=
  match all.find? (fun f => f.name == name) with
  | some f => .ok f
  | none => .error (.unknownFormat name)

/-- The extensions of paths, and their formats. -/
def extensions : List (String × Format) := [(".toml", toml), (".yaml", yaml), (".yml", yaml), (".json", json)]

/-- Whether a path has an extension, in small letters or capitals. -/
def hasExtension (path extension : String) : Bool := extension.toList.isSuffixOf (Text.lower path).toList

/-- **The format of a path.** -/
def ofPath (path : String) : Except Problem Format :=
  match extensions.find? (fun e => hasExtension path e.1) with
  | some e => .ok e.2
  | none => .error (.badExtension path (extensions.map Prod.fst))

end Format

namespace Description

/-- **Reads a description** in a format. -/
def parse (format : Format) (text : String) : Except Problem Description :=
  match format with
  | .toml =>
    match readToml text with
    | .ok d => .ok d
    | .error .malformed => .error (.unreadable format.name)
    | .error (.unknownKeys keys) => .error (.unknownKeys format.name (keys.map Toml.pathText))
  | .yaml =>
    match readYaml? text with
    | some d => .ok d
    | none => .error (.unreadable format.name)
  | .json =>
    match readJson? text with
    | some d => .ok d
    | none => .error (.unreadable format.name)

/-- **Writes a description** in a format. -/
def encode (d : Description) : Format → String
  | .toml => d.writeToml
  | .yaml => d.writeYaml
  | .json => d.toJson.document

/-- Reads a description from a path; `read` gives what stands there.  The path is looked at first. -/
def load (read : String → Except Problem String) (path : String) : Except Problem Description :=
  match Format.ofPath path with
  | .error e => .error e
  | .ok format => (read path).bind (parse format)

end Description

/-- **Reads a program from a path** and checks it. -/
def Program.load (read : String → Except Problem String) (path : String) : Except Problem Program :=
  (Description.load read path).bind Description.program

end LoopNest
