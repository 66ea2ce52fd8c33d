import LoopNest.Node.Basic
import LoopNest.Json.Overlay
/-!
# Node.Wire — nodes as objects of the data format

A node is written as an object with its kind and those of its arguments that are not empty.  Reading accepts the
members in any order and any case; of a member given twice the later one counts, `null` leaves a member as it was, and
members with other names are passed over.
-/
namespace LoopNest
namespace Node

/-- Why a text gives no node. -/
inductive WireError where
  /-- It is no object of the right shape. -/
  | malformed
  /-- Its kind is none that is known. -/
  | unknownKind (kind : String)
  /-- It is a point that no program has. -/
  | unknownAnchor (anchor : String)
deriving DecidableEq, Repr

/-- The wording of an error. -/
def WireError.message : WireError → String
  | .malformed => "malformed node"
  | .unknownKind k => "ir: unknown node kind " ++ Text.quoted k
  | .unknownAnchor a => "ir: unknown anchor " ++ Text.quoted a

/-- What is said about a node that cannot be written. -/
def blankMessage : String := "ir: cannot marshal zero node"

/-- A member that is left out when its text is empty. -/
def optionalText (name value : String) : List (String × Json) := if value = "" then [] else [(name, .string value)]

/-- A member that is left out when its list is empty. -/
def optionalTexts (name : String) (values : List String) : List (String × Json) :=
  if values.isEmpty then [] else [(name, .array (values.map .string))]

/-- **The object for a node**; there is none for the blank node. -/
def toJson? : Node → Option Json
  | .blank => none
  | n => some (.object (
      ("kind", .string n.kind.name) :: optionalText "tensor" n.root ++ optionalText "rank" n.rankId ++
        optionalTexts "ranks" n.rankIds ++ optionalText "fiber" n.fiberName ++ optionalText "anchor" n.anchor.label))

/-- The text for a node. -/
def wire? (n : Node) : Option String := n.toJson?.map (fun j => String.ofList j.compact)

/-- The members of an object that describe a node. -/
structure Draft where
  kind : String := ""
  root : String := ""
  rank : String := ""
  ranks : Option (List String) := none
  fiber : String := ""
  anchor : String := ""

/-- A draft with one more member. -/
def Draft.set (d : Draft) (name : String) (v : Json) : Option Draft :=
  if Json.sameName name "kind" then (Json.textOver d.kind v).map (fun s => { d with kind := s })
  else if Json.sameName name "tensor" then (Json.textOver d.root v).map (fun s => { d with root := s })
  else if Json.sameName name "rank" then (Json.textOver d.rank v).map (fun s => { d with rank := s })
  else if Json.sameName name "ranks" then
    (Json.listOver "" Json.textOver d.ranks v).map (fun s => { d with ranks := s })
  else if Json.sameName name "fiber" then (Json.textOver d.fiber v).map (fun s => { d with fiber := s })
  else if Json.sameName name "anchor" then (Json.textOver d.anchor v).map (fun s => { d with anchor := s })
  else some d

/-- **The node that a draft describes.** -/
def Draft.node (d : Draft) : Except WireError Node :=
  if d.kind = "tensor" then .ok (.tensor d.root)
  else if d.kind = "rank" then .ok (.rank d.root d.rank)
  else if d.kind = "fiber" then .ok (.fiber d.fiber)
  else if d.kind = "loop" then .ok (.loop d.rank)
  else if d.kind = "part" then .ok (ofPart d.root (d.ranks.getD []))
  else if d.kind = "from_fiber" then .ok (.fromFiber d.root d.rank)
  else if d.kind = "sr" then .ok (ofSwizzle d.root (d.ranks.getD []))
  else if d.kind = "other" then
    if (Anchor.mk d.anchor).isKnown then .ok (.other ⟨d.anchor⟩) else .error (.unknownAnchor d.anchor)
  else .error (.unknownKind d.kind)

/-- The node of a value: of an object by its members, and of `null` by none. -/
def ofJson (j : Json) : Except WireError Node :=
  match Json.objectOver Draft.set {} j with
  | none => .error .malformed
  | some d => d.node

/-- **The node that a text describes.** -/
def ofWire (s : String) : Except WireError Node :=
  match Json.ofText? s with
  | none => .error .malformed
  | some j => ofJson j

end Node
end LoopNest
