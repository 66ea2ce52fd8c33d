import LoopNest.Json.Reader
/-!
# Json.Overlay — values given over older ones

A member that is given again is given over its older value: `null` leaves a text or a number as it was and takes a
list away, and the items of a list are given over the items of the older list, one by one.
-/
namespace LoopNest
namespace Json

/-- A text given over `old`. -/
def textOver (old : String) : Json → Option String
  | .string s => some s
  | .null => some old
  | _ => none

/-- A whole number that fits a signed word, given over `old`. -/
def intOver (old : Int) : Json → Option Int
  | .number l => (Text.readSigned l).toOption
  | .null => some old
  | _ => none

/-- Items given over those of `old`, by `give`; new ones are given over `fresh`. -/
def itemsOver {α : Type} (fresh : α) (give : α → Json → Option α) : List α → List Json → Option (List α)
  | _, [] => some []
  | old, v :: vs => (give (old.headD fresh) v).bind fun a => (itemsOver fresh give old.tail vs).map (a :: ·)

/-- A list given over `old`. -/
def listOver {α : Type} (fresh : α) (give : α → Json → Option α) (old : Option (List α)) :
    Json → Option (Option (List α))
  | .array items => (itemsOver fresh give (old.getD []) items).map some
  | .null => some none
  | _ => none

/-- **An object given over `old`**, member by member; `null` leaves `old` as it was. -/
def objectOver {α : Type} (set : α → String → Json → Option α) (old : α) : Json → Option α
  | .object members => members.foldlM (fun a m => set a m.1 m.2) old
  | .null => some old
  | _ => none

end Json
end LoopNest
