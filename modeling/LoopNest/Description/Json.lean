import LoopNest.Description.Basic
import LoopNest.Json.Overlay
/-!
# Description.Json — descriptions as objects of the data format

`toJson` writes a description, `ofJson?` reads one.  The names of members are read in any case, and a member with
another name is refused.
-/
namespace LoopNest
namespace Description

/-- A list, or `null` when it is left out. -/
def listJson {α : Type} (item : α → Json) : Option (List α) → Json
  | none => .null
  | some l => .array (l.map item)

/-- A step as an object; the leader is left out when there is none. -/
def stepJson (s : Step) : Json :=
  .object (("kind", .string s.kind.name) :: ("size", .int s.size) ::
    if s.leader = "" then [] else [("leader", .string s.leader)])

/-- A tensor as an object. -/
def tensorJson (t : Tensor) : Json := .object [("name", .string t.root), ("ranks", listJson .string t.declared)]

/-- A rule as an object. -/
def ruleJson (r : RuleEntry) : Json := .object [("rank", .string r.rank), ("steps", listJson stepJson r.steps)]

/-- **A description as an object.** -/
def toJson (d : Description) : Json :=
  .object [("output", .string d.output), ("loop_order", listJson .string d.loops),
    ("tensors", listJson tensorJson d.tensors), ("partitions", listJson ruleJson d.rules)]

/-- Sets one member of a step. -/
def setStep (s : Step) (name : String) (v : Json) : Option Step :=
  if Json.sameName name "kind" then (Json.textOver s.kind.name v).map (fun k => { s with kind := ⟨k⟩ })
  else if Json.sameName name "size" then (Json.intOver s.size v).map (fun n => { s with size := n })
  else if Json.sameName name "leader" then (Json.textOver s.leader v).map (fun l => { s with leader := l })
  else none

/-- Sets one member of a tensor. -/
def setTensor (t : Tensor) (name : String) (v : Json) : Option Tensor :=
  if Json.sameName name "name" then (Json.textOver t.root v).map (fun r => { t with root := r })
  else if Json.sameName name "ranks" then
    (Json.listOver "" Json.textOver t.declared v).map (fun l => { t with declared := l })
  else none

/-- Sets one member of a rule. -/
def setRule (r : RuleEntry) (name : String) (v : Json) : Option RuleEntry :=
  if Json.sameName name "rank" then (Json.textOver r.rank v).map (fun k => { r with rank := k })
  else if Json.sameName name "steps" then
    (Json.listOver ⟨⟨""⟩, 0, ""⟩ (Json.objectOver setStep) r.steps v).map (fun l => { r with steps := l })
  else none

/-- Sets one member of a description. -/
def setMember (d : Description) (name : String) (v : Json) : Option Description :=
  if Json.sameName name "output" then (Json.textOver d.output v).map (fun o => { d with output := o })
  else if Json.sameName name "loop_order" then
    (Json.listOver "" Json.textOver d.loops v).map (fun l => { d with loops := l })
  else if Json.sameName name "tensors" then
    (Json.listOver ⟨"", none⟩ (Json.objectOver setTensor) d.tensors v).map (fun l => { d with tensors := l })
  else if Json.sameName name "partitions" then
    (Json.listOver ⟨"", none⟩ (Json.objectOver setRule) d.rules v).map (fun l => { d with rules := l })
  else none

/-- The description that an object gives. -/
def ofJson? (j : Json) : Option Description := Json.objectOver setMember empty j

/-- **Reads a description** from the first value of a text. -/
def readJson? (s : String) : Option Description := (Json.read? s.toList).bind (fun r => ofJson? r.1)

end Description
end LoopNest
