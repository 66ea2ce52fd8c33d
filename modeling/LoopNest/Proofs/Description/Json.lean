import Mathlib
import LoopNest.Description.Format
import LoopNest.Proofs.Json.Reading
/-!
# Proofs.Description.Json — descriptions as objects, there and back

A description nests no deeper than an object may, so its document is read back as the object it was written from
(`fits_toJson`).  Each member of that object sets the field it came from, and a list that was left out is `null`, which
leaves it out again (`listOver_listJson`).  The two together give the whole description back, whatever it holds
(`parse_encode_json`).
-/
namespace LoopNest
namespace Description

open Json (Fits)

/-- The descriptions whose sizes fit a signed word. -/
def Sized (d : Description) : Prop := ∀ r ∈ d.rules.getD [], ∀ s ∈ r.steps.getD [], Text.Word s.size

instance : DecidablePred Sized := fun d =>
  inferInstanceAs (Decidable (∀ r ∈ d.rules.getD [], ∀ s ∈ r.steps.getD [], Text.Word s.size))

/-! ## Depth -/

theorem fits_listJson {α : Type} {item : α → Json} {room : Nat} (h : ∀ a, Fits room (item a)) (l : Option (List α)) :
    Fits (room + 1) (listJson item l) := by
  cases l with
  | none => exact .null _
  | some l =>
    refine .array fun v hv => ?_
    obtain ⟨a, -, rfl⟩ := List.mem_map.1 hv
    exact h a

theorem fits_stepJson (s : Step) : Fits 1 (stepJson s) := by
  refine .object ?_
  split_ifs <;> simp [Fits.string, Fits.int]

theorem fits_tensorJson (t : Tensor) : Fits 2 (tensorJson t) :=
  .object <| by simp [Fits.string, fits_listJson (fun s => Fits.string 0 s)]

theorem fits_ruleJson (r : RuleEntry) : Fits 3 (ruleJson r) :=
  .object <| by simp [Fits.string, fits_listJson fits_stepJson]

theorem fits_toJson (d : Description) : Fits 5 d.toJson := by
  have hl := fits_listJson (fun s => Fits.string 3 s) d.loops
  have ht := fits_listJson (fun t => (fits_tensorJson t).mono (n := 3) (by omega)) d.tensors
  have hr := fits_listJson fits_ruleJson d.rules
  exact .object <| by simp [Fits.string, hl, ht, hr]

/-! ## Members -/

/-- A list is given back over no list, whether it was left out or not. -/
theorem listOver_listJson {α : Type} {fresh : α} {give : α → Json → Option α} {item : α → Json} {l : Option (List α)}
    (h : ∀ a ∈ l.getD [], give fresh (item a) = some a) : Json.listOver fresh give none (listJson item l) = some l := by
  cases l with
  | none => rfl
  | some l =>
    rw [listJson, Json.listOver, Option.getD_none, Json.itemsOver_map (l := l) h]
    rfl

theorem listOver_strings (l : Option (List String)) :
    Json.listOver "" Json.textOver none (listJson .string l) = some l :=
  listOver_listJson fun _ _ => rfl

theorem intOver_int {i : Int} (h : Text.Word i) (old : Int) : Json.intOver old (.int i) = some i := by
  rw [Json.int, Json.intOver, Text.readSigned_signedDigits h]
  rfl

theorem objectOver_stepJson {s : Step} (h : Text.Word s.size) :
    Json.objectOver setStep ⟨⟨""⟩, 0, ""⟩ (stepJson s) = some s := by
  have hk : ∀ a : Step, setStep a "kind" (.string s.kind.name) = some { a with kind := s.kind } := fun _ => rfl
  have hn : ∀ a : Step, setStep a "size" (.int s.size) = some { a with size := s.size } := by
    intro a
    change (Json.intOver a.size (.int s.size)).map _ = _
    rw [intOver_int h]
    rfl
  have hl : ∀ a : Step, setStep a "leader" (.string s.leader) = some { a with leader := s.leader } := fun _ => rfl
  obtain ⟨kind, size, leader⟩ := s
  by_cases hs : leader = ""
  · subst hs
    simp [stepJson, Json.objectOver, hk, hn]
  · simp [stepJson, Json.objectOver, hs, hk, hn, hl]

theorem objectOver_tensorJson (t : Tensor) : Json.objectOver setTensor ⟨"", none⟩ (tensorJson t) = some t := by
  have hr : ∀ a : Tensor, setTensor a "name" (.string t.root) = some { a with root := t.root } := fun _ => rfl
  have hd : setTensor ⟨t.root, none⟩ "ranks" (listJson .string t.declared) = some t := by
    change (Json.listOver "" Json.textOver none (listJson .string t.declared)).map _ = _
    rw [listOver_strings]
    rfl
  simp [tensorJson, Json.objectOver, hr, hd]

theorem objectOver_ruleJson {r : RuleEntry} (h : ∀ s ∈ r.steps.getD [], Text.Word s.size) :
    Json.objectOver setRule ⟨"", none⟩ (ruleJson r) = some r := by
  have hk : ∀ a : RuleEntry, setRule a "rank" (.string r.rank) = some { a with rank := r.rank } := fun _ => rfl
  have hs : setRule ⟨r.rank, none⟩ "steps" (listJson stepJson r.steps) = some r := by
    change (Json.listOver _ (Json.objectOver setStep) none (listJson stepJson r.steps)).map _ = _
    rw [listOver_listJson fun s hs => objectOver_stepJson (h s hs)]
    rfl
  simp [ruleJson, Json.objectOver, hk, hs]

theorem ofJson?_toJson {d : Description} (h : d.Sized) : ofJson? d.toJson = some d := by
  have ho : setMember empty "output" (.string d.output) = some ⟨d.output, none, none, none⟩ := rfl
  have hl : setMember ⟨d.output, none, none, none⟩ "loop_order" (listJson .string d.loops) =
      some ⟨d.output, d.loops, none, none⟩ := by
    change (Json.listOver "" Json.textOver none (listJson .string d.loops)).map _ = _
    rw [listOver_strings]
    rfl
  have ht : setMember ⟨d.output, d.loops, none, none⟩ "tensors" (listJson tensorJson d.tensors) =
      some ⟨d.output, d.loops, d.tensors, none⟩ := by
    change (Json.listOver _ (Json.objectOver setTensor) none (listJson tensorJson d.tensors)).map _ = _
    rw [listOver_listJson fun t _ => objectOver_tensorJson t]
    rfl
  have hr : setMember ⟨d.output, d.loops, d.tensors, none⟩ "partitions" (listJson ruleJson d.rules) = some d := by
    change (Json.listOver _ (Json.objectOver setRule) none (listJson ruleJson d.rules)).map _ = _
    rw [listOver_listJson fun r hr => objectOver_ruleJson (h r hr)]
    rfl
  simp [ofJson?, toJson, Json.objectOver, ho, hl, ht, hr]

theorem readJson?_document {d : Description} (h : d.Sized) : readJson? d.toJson.document = some d := by
  rw [readJson?, Json.read?_document ((fits_toJson d).mono (by decide)), Option.bind_some, ofJson?_toJson h]

/-- **Every description comes back from its object as it was**: any texts, any sizes that fit a word, and each list left
out, empty or filled. -/
theorem parse_encode_json (d : Description) (h : d.Sized) : parse .json (d.encode .json) = .ok d := by
  rw [encode, parse, readJson?_document h]

/-- A description that no program has: texts that have to be escaped, lists left out beside empty ones, the least
size. -/
def motley : Description where
  output := "a\"\\<\u2028\x01"
  loops := none
  tensors := some [⟨"", none⟩, ⟨"é", some []⟩, ⟨"T\n", some ["K", "K"]⟩]
  rules := some [⟨"K", none⟩, ⟨"&", some []⟩, ⟨">", some [⟨⟨"x"⟩, -9223372036854775808, ""⟩, ⟨⟨""⟩, 0, "\u2029"⟩]⟩]

theorem parse_encode_json_motley : motley.Sized ∧ parse .json (motley.encode .json) = .ok motley :=
  have h : motley.Sized := by decide
  ⟨h, parse_encode_json motley h⟩

end Description
end LoopNest
