import Mathlib
import LoopNest.Description.Yaml
import LoopNest.Proofs.Description.Filling
import LoopNest.Proofs.Yaml.Words
/-!
# Proofs.Description.Yaml — descriptions as indented documents

A description in which every text is a name is written as an indented document and read back from it.  Lists that were
left out come back as empty ones (`filledIn`), because the document does not tell the two apart.

What is written and what is read meet at a tree: `readTree_writeYaml` says that the document of a description is read as
its tree, and `ofYaml?_yamlTree` that the tree gives the description.
-/
namespace LoopNest

/-! ## Descriptions with names -/

/-- A text that may be a name. -/
def IsName (s : String) : Prop := Identifier.isWord s.toList = true

instance : DecidablePred IsName := fun s => inferInstanceAs (Decidable (Identifier.isWord s.toList = true))

/-- A step with names, whose size is a word. -/
structure Step.Worded (s : Step) : Prop where
  kind : IsName s.kind.name
  size : Text.Word s.size
  leader : s.leader = "" ∨ IsName s.leader

/-- A tensor with names. -/
structure Tensor.Worded (t : Tensor) : Prop where
  root : IsName t.root
  ranks : ∀ r ∈ t.ranks, IsName r

/-- An entry with names. -/
structure RuleEntry.Worded (e : RuleEntry) : Prop where
  rank : IsName e.rank
  steps : ∀ s ∈ e.steps.getD [], s.Worded

/-- **A description in which all texts are names.** -/
structure Description.Worded (d : Description) : Prop where
  output : IsName d.output
  loops : ∀ r ∈ d.loops.getD [], IsName r
  tensors : ∀ t ∈ d.tensors.getD [], t.Worded
  rules : ∀ e ∈ d.rules.getD [], e.Worded

namespace Description

open Yaml (Tree GivesTree GivesFields GivesItems nameStyle meaning? isBreak)
open Yaml.Layout (depthLimit Spelled FieldName)

/-! ## The tree of a description -/

/-- A name. -/
def nameTree (s : String) : Tree := .scalar (nameStyle s) [] s.toList

/-- A key and its value. -/
def fieldEntry (f : String × Tree) : Tree × Tree := (.scalar .plain [] f.1.toList, f.2)

/-- A record. -/
def recordTree (fs : List (String × Tree)) : Tree := .mapping (fs.map fieldEntry)

/-- The fields of a step. -/
def stepFields (s : Step) : List (String × Tree) :=
  [("kind", nameTree s.kind.name), ("size", .scalar .plain [] (Text.signedDigits s.size))] ++
    if s.leader = "" then [] else [("leader", nameTree s.leader)]

/-- The fields of a tensor. -/
def tensorFields (t : Tensor) : List (String × Tree) :=
  [("name", nameTree t.root), ("ranks", .sequence (t.ranks.map nameTree))]

/-- The fields of a rule. -/
def ruleFields (r : RuleEntry) : List (String × Tree) :=
  [("rank", nameTree r.rank), ("steps", .sequence ((r.steps.getD []).map (fun s => recordTree (stepFields s))))]

/-- The fields of a description. -/
def yamlTree (d : Description) : List (String × Tree) :=
  [("output", nameTree d.output), ("loop_order", .sequence ((d.loops.getD []).map nameTree)),
    ("tensors", .sequence ((d.tensors.getD []).map (fun t => recordTree (tensorFields t)))),
    ("partitions", .sequence ((d.rules.getD []).map (fun r => recordTree (ruleFields r))))]

/-- The names of fields. -/
def fieldNames : List String :=
  ["kind", "size", "leader", "name", "ranks", "rank", "steps", "output", "loop_order", "tensors", "partitions"]

theorem fieldName_of_mem {n : String} (h : n ∈ fieldNames) : FieldName n.toList := by
  have hall := List.all_eq_true.1 (by decide : fieldNames.all (fun n => Identifier.isWord n.toList &&
    decide (n.toList.length ≤ Yaml.Layout.keyLimit)) = true) n h
  rw [Bool.and_eq_true, decide_eq_true_eq] at hall
  exact Yaml.fieldName_of_isWord hall.1 hall.2

theorem meaning?_fieldName {n : String} (h : n ∈ fieldNames) : meaning? .plain [] n.toList = some .text := by
  have hall := List.all_eq_true.1 (by decide : fieldNames.all (fun n => decide (meaning? .plain [] n.toList =
    some .text)) = true) n h
  exact of_decide_eq_true hall

/-! ## Writing -/

/-- The text `t` is `lead` and then lines that give fields. -/
def FieldsAfter (j : Nat) (lead t : List Char) (fs : List (String × Tree)) : Prop :=
  ∃ u, t = lead ++ u ∧ GivesFields j u (fs.map fieldEntry)

/-- The text `t` is the blanks before a block and then lines that give items of it. -/
def ItemsAt (j : Nat) (t : List Char) (l : List Tree) : Prop :=
  ∃ u, t = yamlIndent (2 * j) ++ u ∧ GivesItems j u l

theorem FieldsAfter.append {j : Nat} {lead t t' : List Char} {fs fs' : List (String × Tree)}
    (h : FieldsAfter j lead t fs) (h' : FieldsAfter j (yamlIndent (2 * j)) t' fs') :
    FieldsAfter j lead (t ++ t') (fs ++ fs') := by
  obtain ⟨u, rfl, hu⟩ := h
  obtain ⟨v, rfl, hv⟩ := h'
  refine ⟨u ++ (yamlIndent (2 * j) ++ v), by simp, ?_⟩
  rw [List.map_append]
  exact hu.append hv

theorem ItemsAt.append {j : Nat} {t t' : List Char} {l l' : List Tree} (h : ItemsAt j t l) (h' : ItemsAt j t' l') :
    ItemsAt j (t ++ t') (l ++ l') := by
  obtain ⟨u, rfl, hu⟩ := h
  obtain ⟨v, rfl, hv⟩ := h'
  exact ⟨u ++ (yamlIndent (2 * j) ++ v), by simp, hu.append hv⟩

/-- Items one below the other. -/
theorem itemsAt_flatMap {α : Type} {j : Nat} {item : α → List Char} {tree : α → Tree} :
    ∀ (a : α) (l : List α), (∀ b ∈ a :: l, ItemsAt j (item b) [tree b]) →
      ItemsAt j ((a :: l).flatMap item) ((a :: l).map tree)
  | a, [], h => by simpa using h a (by simp)
  | a, b :: l, h =>
    (h a (by simp)).append (itemsAt_flatMap b l (fun x hx => h x (List.mem_cons_of_mem _ hx)))

theorem yamlEndLine_eq {v : List Char} (h : ∀ c ∈ v.getLast?, isBreak c = false) : yamlEndLine v = v ++ ['\n'] := by
  unfold yamlEndLine
  cases hl : v.getLast? with
  | none => rfl
  | some c => simp [h c hl]

theorem yamlEndLine_of_spelled {v w : List Char} {style : Yaml.Style} (h : Spelled v style w) :
    yamlEndLine v = v ++ ['\n'] := by
  refine yamlEndLine_eq ?_
  intro c hc
  rcases h with ⟨rfl, -, hw⟩ | ⟨rfl, -, -⟩
  · exact (Yaml.visible_of_isNameChar (List.all_eq_true.1 hw.2.2 c (List.mem_of_getLast? hc))).2.1
  · rw [← List.cons_append, List.getLast?_append] at hc
    obtain rfl : '"' = c := by simpa using hc
    decide

theorem fieldsAfter_value {j : Nat} (lead : List Char) {n : String} {v : List Char} {t : Tree} (h : GivesTree j v t)
    (hv : yamlEndLine v = v ++ ['\n']) (hn : n ∈ fieldNames) (hj : j < depthLimit) :
    FieldsAfter j lead (yamlField lead n v) [(n, t)] :=
  ⟨_, by simp [yamlField, hv], h.field (fieldName_of_mem hn) hj⟩

theorem fieldsAfter_spelled {j : Nat} (lead : List Char) {n : String} {v w : List Char} {style : Yaml.Style}
    (h : Spelled v style w) (hn : n ∈ fieldNames) (hj : j < depthLimit) :
    FieldsAfter j lead (yamlField lead n v) [(n, .scalar style [] w)] :=
  fieldsAfter_value lead (h.givesTree j) (yamlEndLine_of_spelled h) hn hj

theorem fieldsAfter_list {α : Type} {j : Nat} (lead : List Char) {n : String} {item : α → List Char} {tree : α → Tree}
    {l : List α} (h : ∀ a ∈ l, ItemsAt (j + 1) (item a) [tree a]) (hn : n ∈ fieldNames) (hj : j < depthLimit) :
    FieldsAfter j lead (yamlList lead n item l) [(n, .sequence (l.map tree))] := by
  cases l with
  | nil => exact fieldsAfter_value lead (Yaml.givesTree_brackets j) (by decide) hn hj
  | cons a l =>
    obtain ⟨u, hu, hi⟩ := itemsAt_flatMap a l h
    refine ⟨_, ?_, hi.field (fieldName_of_mem hn) hj⟩
    rw [yamlList, hu]
    simp [yamlIndent]

theorem FieldsAfter.item {j : Nat} {t : List Char} {fs : List (String × Tree)}
    (h : FieldsAfter (j + 1) (yamlDash (2 * j)) t fs) (h0 : 0 < j) (hj : j < depthLimit) :
    ItemsAt j t [recordTree fs] := by
  obtain ⟨u, rfl, hu⟩ := h
  exact ⟨'-' :: ' ' :: u, by simp [yamlDash], hu.item h0 hj⟩

theorem itemsAt_name {j : Nat} {s : String} (h : IsName s) (h0 : 0 < j) (hj : j < depthLimit) :
    ItemsAt j (yamlTextItem (2 * j) s) [nameTree s] := by
  have hs := Yaml.spelled_writeText h (2 * j + 2)
  refine ⟨_, ?_, (hs.givesTree j).item h0 hj⟩
  rw [yamlTextItem, yamlEndLine_of_spelled hs]
  simp [yamlDash]

theorem itemsAt_step {s : Step} (h : s.Worded) : ItemsAt 3 (yamlStep s) [recordTree (stepFields s)] := by
  refine FieldsAfter.item (j := 3) ?_ (by decide) (by decide)
  have hkind := fieldsAfter_spelled (j := 4) (n := "kind") (yamlDash 6) (Yaml.spelled_writeText h.kind 10) (by decide)
    (by decide)
  have hsize := fieldsAfter_spelled (j := 4) (n := "size") (yamlIndent 8)
    (.inl ⟨rfl, rfl, Yaml.wordy_signedDigits s.size⟩) (by decide) (by decide)
  unfold yamlStep stepFields
  by_cases hl : s.leader = ""
  · rw [if_pos hl, if_pos hl, List.append_nil, List.append_nil]
    exact hkind.append hsize
  · rw [if_neg hl, if_neg hl]
    have hleader := fieldsAfter_spelled (j := 4) (n := "leader") (yamlIndent 8)
      (Yaml.spelled_writeText (h.leader.resolve_left hl) 10) (by decide) (by decide)
    exact (hkind.append hsize).append hleader

theorem itemsAt_tensor {t : Tensor} (h : t.Worded) : ItemsAt 1 (yamlTensor t) [recordTree (tensorFields t)] := by
  refine FieldsAfter.item (j := 1) ?_ (by decide) (by decide)
  have hname := fieldsAfter_spelled (j := 2) (n := "name") (yamlDash 2) (Yaml.spelled_writeText h.root 6) (by decide)
    (by decide)
  have hranks := fieldsAfter_list (j := 2) (n := "ranks") (yamlIndent 4)
    (fun r hr => itemsAt_name (j := 3) (h.ranks r hr) (by decide) (by decide)) (by decide) (by decide)
  exact hname.append hranks

theorem itemsAt_rule {r : RuleEntry} (h : r.Worded) : ItemsAt 1 (yamlRule r) [recordTree (ruleFields r)] := by
  refine FieldsAfter.item (j := 1) ?_ (by decide) (by decide)
  have hrank := fieldsAfter_spelled (j := 2) (n := "rank") (yamlDash 2) (Yaml.spelled_writeText h.rank 6) (by decide)
    (by decide)
  have hsteps := fieldsAfter_list (j := 2) (n := "steps") (yamlIndent 4) (fun s hs => itemsAt_step (h.steps s hs))
    (by decide) (by decide)
  exact hrank.append hsteps

/-- **What is written gives the tree of the description.** -/
theorem readTree_writeYaml {d : Description} (h : d.Worded) :
    Yaml.readTree d.writeYaml.toList = some (some (recordTree d.yamlTree)) := by
  have houtput := fieldsAfter_spelled (j := 0) (n := "output") [] (Yaml.spelled_writeText h.output 2) (by decide)
    (by decide)
  have hloops := fieldsAfter_list (j := 0) (n := "loop_order") []
    (fun r hr => itemsAt_name (j := 1) (h.loops r hr) (by decide) (by decide)) (by decide) (by decide)
  have htensors := fieldsAfter_list (j := 0) (n := "tensors") [] (fun t ht => itemsAt_tensor (h.tensors t ht))
    (by decide) (by decide)
  have hrules := fieldsAfter_list (j := 0) (n := "partitions") [] (fun r hr => itemsAt_rule (h.rules r hr))
    (by decide) (by decide)
  obtain ⟨u, hu, hg⟩ := ((houtput.append hloops).append htensors).append hrules
  rw [List.nil_append] at hu
  rw [writeYaml, String.toList_ofList]
  refine (congrArg Yaml.readTree hu).trans ?_
  exact Yaml.readTree_of_fields hg

/-! ## Reading -/

theorem yamlText_nameTree {s : String} (h : IsName s) : yamlText (nameTree s) = some (some s) := by
  have hm := Yaml.meaning?_name h
  simp [yamlText, nameTree, Tree.actual?, hm]

theorem yamlInteger_signedDigits {i : Int} (h : Text.Word i) :
    yamlInteger (.scalar .plain [] (Text.signedDigits i)) = some (some i) := by
  have hw : Text.signedDigits i ≠ ['<', '<'] := by
    intro hd
    exact absurd (Yaml.wordy_signedDigits i).2.2 (by rw [hd]; decide)
  have ht : String.ofList (Yaml.Meaning.shortTag []) = "" := by decide
  have hm : meaning? .plain [] (Text.signedDigits i) = some (.integer i) := by
    simp [meaning?, ht, hw, Yaml.ofPlain_signedDigits h]
  simp [yamlInteger, Tree.actual?, hm, h.2]

/-- Items that are read one by one. -/
theorem yamlSequence_map {α β : Type} {read : Tree → Given β} {tree : α → Tree} {f : α → β} {l : List α}
    (h : ∀ a ∈ l, read (tree a) = some (some (f a))) :
    yamlSequence read (.sequence (l.map tree)) = some (some (l.map f)) := by
  have hitems : yamlItems read (l.map tree) = some (l.map f) := by
    induction l with
    | nil => rfl
    | cons a l ih =>
      rw [List.map_cons, yamlItems, h a (by simp), ih (fun b hb => h b (List.mem_cons_of_mem _ hb))]
      rfl
  simp [yamlSequence, Tree.actual?, hitems]

theorem yamlSequence_self {α : Type} {read : Tree → Given α} {tree : α → Tree} {l : List α}
    (h : ∀ a ∈ l, read (tree a) = some (some a)) : yamlSequence read (.sequence (l.map tree)) = some (some l) := by
  have hmap := yamlSequence_map (f := fun a => a) h
  rwa [List.map_id'] at hmap

theorem yamlIsMerge_fieldEntry {f : String × Tree} (h : f.1 ∈ fieldNames) : yamlIsMerge (fieldEntry f).1 = false := by
  simp [yamlIsMerge, fieldEntry, meaning?_fieldName h]

theorem yamlOwnFields_map {fs : List (String × Tree)} (h : ∀ f ∈ fs, f.1 ∈ fieldNames) :
    yamlOwnFields (fs.map fieldEntry) = some fs := by
  induction fs with
  | nil => rfl
  | cons f fs ih =>
    have hf := h f (by simp)
    have ht : yamlText (fieldEntry f).1 = some (some f.1) := by
      simp [yamlText, fieldEntry, Tree.actual?, meaning?_fieldName hf]
    have hm := yamlIsMerge_fieldEntry hf
    simp only [fieldEntry] at ht hm
    rw [List.map_cons, fieldEntry, yamlOwnFields, hm, ht, ih (fun g hg => h g (List.mem_cons_of_mem _ hg))]
    rfl

theorem yamlKeysDiffer_map {fs : List (String × Tree)} (h : (fs.map Prod.fst).Nodup) :
    yamlKeysDiffer (fs.map fieldEntry) = true := by
  induction fs with
  | nil => rfl
  | cons f fs ih =>
    rw [List.map_cons, List.nodup_cons] at h
    have hf : (fs.map fieldEntry).any (fun e => yamlSameKey (fieldEntry f).1 e.1) = false := by
      rw [List.any_eq_false]
      intro e he hk
      obtain ⟨g, hg, rfl⟩ := List.mem_map.1 he
      have heq : f.1 = g.1 := by simpa [yamlSameKey, fieldEntry, String.toList_inj] using hk
      exact h.1 (heq ▸ List.mem_map_of_mem hg)
    change (!(fs.map fieldEntry).any (fun e => yamlSameKey (fieldEntry f).1 e.1) && _) = true
    rw [hf, ih h.2]
    rfl

/-- **A record is read by setting its fields**, which differ and merge nothing. -/
theorem yamlRecord_recordTree {α : Type} (set : α → String → Tree → Option α) (fresh : α) {fs : List (String × Tree)}
    (hn : ∀ f ∈ fs, f.1 ∈ fieldNames) (hd : (fs.map Prod.fst).Nodup) :
    yamlRecord set fresh (recordTree fs) = (yamlSetFields set fresh fs).map some := by
  have hfind : (fs.map fieldEntry).find? (fun e => yamlIsMerge e.1) = none := by
    rw [List.find?_eq_none]
    intro e he
    obtain ⟨f, hf, rfl⟩ := List.mem_map.1 he
    simp [yamlIsMerge_fieldEntry (hn f hf)]
  have hnames : yamlNamesDiffer fs = true := decide_eq_true hd
  simp [yamlRecord, recordTree, Tree.actual?, yamlOwnFields_map hn, yamlKeysDiffer_map hd, hnames, hfind]

theorem yamlRecord_step {s : Step} (h : s.Worded) :
    yamlRecord setYamlStep ⟨⟨""⟩, 0, ""⟩ (recordTree (stepFields s)) = some (some s) := by
  have hkind := yamlText_nameTree h.kind
  have hsize := yamlInteger_signedDigits h.size
  by_cases hl : s.leader = ""
  · have hs : (⟨s.kind, s.size, ""⟩ : Step) = s := by rw [← hl]
    rw [yamlRecord_recordTree]
    · simpa [stepFields, hl, yamlSetFields, setYamlStep, hkind, hsize] using hs
    · simp [stepFields, hl, fieldNames]
    · simp [stepFields, hl]
  · have hleader := yamlText_nameTree (h.leader.resolve_left hl)
    rw [yamlRecord_recordTree]
    · simp [stepFields, hl, yamlSetFields, setYamlStep, hkind, hsize, hleader]
    · simp [stepFields, hl, fieldNames]
    · simp [stepFields, hl]

theorem yamlRecord_tensor {t : Tensor} (h : t.Worded) :
    yamlRecord setYamlTensor ⟨"", none⟩ (recordTree (tensorFields t)) = some (some t.filledIn) := by
  have hname := yamlText_nameTree h.root
  have hranks := yamlSequence_self (fun r hr => yamlText_nameTree (h.ranks r hr))
  rw [yamlRecord_recordTree]
  · simp [tensorFields, yamlSetFields, setYamlTensor, hname, hranks, Tensor.filledIn]
  · simp [tensorFields, fieldNames]
  · simp [tensorFields]

theorem yamlRecord_rule {r : RuleEntry} (h : r.Worded) :
    yamlRecord setYamlRule ⟨"", none⟩ (recordTree (ruleFields r)) = some (some r.filledIn) := by
  have hrank := yamlText_nameTree h.rank
  have hsteps := yamlSequence_self (fun s hs => yamlRecord_step (h.steps s hs))
  rw [yamlRecord_recordTree]
  · simp [ruleFields, yamlSetFields, setYamlRule, hrank, hsteps, RuleEntry.filledIn]
  · simp [ruleFields, fieldNames]
  · simp [ruleFields]

/-- **The tree of a description gives it back**, with its lists filled in. -/
theorem ofYaml?_yamlTree {d : Description} (h : d.Worded) : ofYaml? (recordTree d.yamlTree) = some d.filledIn := by
  have houtput := yamlText_nameTree h.output
  have hloops := yamlSequence_self (fun r hr => yamlText_nameTree (h.loops r hr))
  have htensors := yamlSequence_map (fun t ht => yamlRecord_tensor (h.tensors t ht))
  have hrules := yamlSequence_map (fun r hr => yamlRecord_rule (h.rules r hr))
  rw [ofYaml?, yamlRecord_recordTree]
  · simp [yamlTree, yamlSetFields, setYamlField, houtput, hloops, htensors, hrules, filledIn]
  · simp [yamlTree, fieldNames]
  · simp [yamlTree]

/-- **A description with names, written as an indented document, is read back** with its lists filled in. -/
theorem readYaml?_writeYaml {d : Description} (h : d.Worded) : readYaml? d.writeYaml = some d.filledIn := by
  rw [readYaml?, readTree_writeYaml h]
  exact ofYaml?_yamlTree h

end Description
end LoopNest
