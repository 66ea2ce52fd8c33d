import Mathlib
import LoopNest.Description.Format
import LoopNest.Proofs.Toml.Reading
import LoopNest.Proofs.Toml.Building
import LoopNest.Proofs.Description.Json
/-!
# Proofs.Description.Toml — descriptions as table files, there and back

The lines of a description are read as its `statements` (`readStatements_writeToml`), the statements make the table
`entries` (`exists_turns_statements`), and each entry sets the field it came from (`gives_entries`).  Every key of the file is understood
on the way, so none is refused, and the whole description comes back (`readToml_writeToml`).
-/
namespace LoopNest
namespace Description

open Toml (Statement Expr Value Entries Path Yields yields_line yields_header)
open Toml.Document (Turns Focus Lacks listing focus_root turns_assign turns_element evaluates_text evaluates_integer
  evaluates_texts)

/-! ## Lines -/

/-- The statement with a list of texts, unless it is left out. -/
def textsStatements (key : String) : Option (List String) → List Statement
  | none => []
  | some l => [.assign [key] (.array (l.map .text))]

/-- The statement that a list of tables is empty. -/
def emptyStatements {α : Type} (key : String) : Option (List α) → List Statement
  | some [] => [.assign [key] (.array [])]
  | _ => []

/-- The statements of a step. -/
def stepStatements (s : Step) : List Statement :=
  [.element ["partition", "steps"], .assign ["kind"] (.text s.kind.name), .assign ["size"] (.integer s.size)] ++
    if s.leader = "" then [] else [.assign ["leader"] (.text s.leader)]

/-- The statements of a tensor. -/
def tensorStatements (t : Tensor) : List Statement :=
  [.element ["tensor"], .assign ["name"] (.text t.root)] ++ textsStatements "ranks" t.declared

/-- The statements of a rule. -/
def ruleStatements (r : RuleEntry) : List Statement :=
  [.element ["partition"], .assign ["rank"] (.text r.rank)] ++ emptyStatements "steps" r.steps ++
    (r.steps.getD []).flatMap stepStatements

/-- **The statements of a description.** -/
def statements (d : Description) : List Statement :=
  [.assign ["output"] (.text d.output)] ++ textsStatements "loop_order" d.loops ++ emptyStatements "tensor" d.tensors ++
    emptyStatements "partition" d.rules ++ (d.tensors.getD []).flatMap tensorStatements ++
    (d.rules.getD []).flatMap ruleStatements

theorem yields_text {k : String} (hk : Toml.Bare k) (indent : Nat) (s : String) :
    Yields (tomlLine indent k (Toml.quotedText s)) [.assign [k] (.text s)] :=
  yields_line hk (fun _ => Toml.clean_quotedText) (fun _ _ _ => Toml.readExpr_quotedText _ s (by simp)) indent

theorem yields_integer {k : String} (hk : Toml.Bare k) (indent : Nat) {i : Int} (h : Text.Word i) :
    Yields (tomlLine indent k (Text.signedDigits i)) [.assign [k] (.integer i)] :=
  yields_line hk (fun _ => Toml.clean_signedDigits) (fun _ _ _ => Toml.readExpr_signedDigits _ h _) indent

theorem clean_tomlTexts (l : List String) : ∀ c ∈ tomlTexts l, Toml.Clean c := by
  have hi : ∀ l : List String, ∀ c ∈ List.intercalate [',', ' '] (l.map Toml.quotedText), Toml.Clean c := by
    intro l
    induction l with
    | nil => simp
    | cons s l ih =>
      cases l with
      | nil => simpa using fun c => Toml.clean_quotedText
      | cons t l =>
        simp only [List.map_cons, List.intercalate_cons_cons, List.forall_mem_append] at ih ⊢
        exact ⟨⟨fun c => Toml.clean_quotedText, by simp [Toml.Clean]⟩, ih⟩
  simp only [tomlTexts, List.cons_append, List.forall_mem_cons, List.forall_mem_append]
  exact ⟨by decide, hi l, by decide, by simp⟩

theorem length_lt_tomlTexts (l : List String) : l.length < (tomlTexts l).length := by
  have hi : ∀ l : List String, l.length ≤ (List.intercalate [',', ' '] (l.map Toml.quotedText)).length := by
    intro l
    induction l with
    | nil => simp
    | cons s l ih =>
      cases l with
      | nil => simp [Toml.quotedText]
      | cons t l =>
        simp only [List.map_cons, List.intercalate_cons_cons, List.length_append, List.length_cons] at ih ⊢
        omega
  have := hi l
  simp only [tomlTexts, List.length_append, List.length_cons]
  omega

theorem yields_texts {k : String} (hk : Toml.Bare k) (indent : Nat) :
    ∀ l : Option (List String), Yields (tomlTextsLine indent k l) (textsStatements k l)
  | none => .nil
  | some l => by
    refine yields_line hk (clean_tomlTexts l) (fun fuel rest hf => ?_) indent
    have := length_lt_tomlTexts l
    exact Toml.readExpr_texts (by omega) ('\n' :: rest)

theorem yields_empty {α : Type} {k : String} (hk : Toml.Bare k) (indent : Nat) :
    ∀ l : Option (List α), Yields (tomlEmptyLine indent k l) (emptyStatements k l)
  | none => .nil
  | some (_ :: _) => .nil
  | some [] => yields_texts hk indent (some [])

theorem yields_step {s : Step} (h : Text.Word s.size) : Yields (tomlStep s) (stepStatements s) := by
  refine (((yields_header ["partition", "steps"] (by decide) (by decide) 2).append
    (yields_text (by decide) 4 s.kind.name)).append (yields_integer (by decide) 4 h)).append ?_
  split
  · exact .nil
  · exact yields_text (by decide) 4 s.leader

theorem yields_tensor (t : Tensor) : Yields (tomlTensor t) (tensorStatements t) :=
  ((yields_header ["tensor"] (by decide) (by decide) 0).append (yields_text (by decide) 2 t.root)).append
    (yields_texts (by decide) 2 t.declared)

theorem yields_rule {r : RuleEntry} (h : ∀ s ∈ r.steps.getD [], Text.Word s.size) :
    Yields (tomlRule r) (ruleStatements r) :=
  (((yields_header ["partition"] (by decide) (by decide) 0).append (yields_text (by decide) 2 r.rank)).append
    (yields_empty (by decide) 2 r.steps)).append (.flatMap fun s hs => yields_step (h s hs))

/-- **The lines of a description are read as its statements.** -/
theorem readStatements_writeToml {d : Description} (h : d.Sized) :
    Toml.readStatements d.writeToml = some d.statements := by
  have houtput := yields_text (k := "output") (by decide) 0 d.output
  have hloops := yields_texts (k := "loop_order") (by decide) 0 d.loops
  have hempty := yields_empty (k := "tensor") (by decide) 0 d.tensors
  have hempty' := yields_empty (k := "partition") (by decide) 0 d.rules
  have htensors := Yields.flatMap (l := d.tensors.getD []) fun t _ => yields_tensor t
  have hrules := Yields.flatMap (l := d.rules.getD []) fun r hr => yields_rule (h r hr)
  have hy := ((((houtput.append hloops).append hempty).append hempty').append htensors).append hrules
  exact hy.readStatements (by simp [tomlLine])

/-! ## Entries -/

/-- The entry with a list of texts, unless it is left out. -/
def textsEntries (key : String) : Option (List String) → Entries
  | none => []
  | some l => [(key, .array (l.map .text))]

/-- The entry that says that a list of tables is empty. -/
def emptyEntries {α : Type} (key : String) : Option (List α) → Entries
  | some [] => [(key, .array [])]
  | _ => []

/-- The entries of a step. -/
def stepEntries (s : Step) : Entries :=
  [("kind", .text s.kind.name), ("size", .integer s.size)] ++ if s.leader = "" then [] else [("leader", .text s.leader)]

/-- The entries of a tensor. -/
def tensorEntries (t : Tensor) : Entries := [("name", .text t.root)] ++ textsEntries "ranks" t.declared

/-- The entries of a rule. -/
def ruleEntries (r : RuleEntry) : Entries :=
  listing ([("rank", .text r.rank)] ++ emptyEntries "steps" r.steps) "steps" ((r.steps.getD []).map stepEntries)

/-- The entries of a description before its lists of tables. -/
def leadingEntries (d : Description) : Entries :=
  [("output", .text d.output)] ++ textsEntries "loop_order" d.loops ++ emptyEntries "tensor" d.tensors ++
    emptyEntries "partition" d.rules

/-- **The entries of a description.** -/
def entries (d : Description) : Entries :=
  listing (listing d.leadingEntries "tensor" ((d.tensors.getD []).map tensorEntries)) "partition"
    ((d.rules.getD []).map ruleEntries)

/-- The keys of entries of the table at a path. -/
def keysAt (here : Path) (es : Entries) : List Path := es.map (fun e => here ++ [e.1])

/-- The keys of a rule, without the header. -/
def ruleKeys (r : RuleEntry) : List Path :=
  ["partition", "rank"] :: keysAt ["partition"] (emptyEntries "steps" r.steps) ++
    (r.steps.getD []).flatMap (fun s => ["partition", "steps"] :: keysAt ["partition", "steps"] (stepEntries s))

/-- **The keys of a description**, in the order of its file. -/
def keys (d : Description) : List Path :=
  keysAt [] d.leadingEntries ++ (d.tensors.getD []).flatMap (fun t => ["tensor"] :: keysAt ["tensor"] (tensorEntries t)) ++
    (d.rules.getD []).flatMap (fun r => ["partition"] :: ruleKeys r)

/-- Elements are added one after the other when each of them can be added. -/
theorem exists_turns_flatMap {α : Type} {whole : List Entries → Entries} {state : α → List Statement}
    {table : α → Entries} {keys : α → List Path} : ∀ {l : List α},
    (∀ a ∈ l, ∀ els c, ∃ c', Turns c (whole els) (state a) c' (whole (els ++ [table a])) (keys a)) →
      ∀ els c, ∃ c', Turns c (whole els) (l.flatMap state) c' (whole (els ++ l.map table)) (l.flatMap keys)
  | [], _, els, c => ⟨c, by simpa using Turns.nil c (whole els)⟩
  | a :: l, h, els, c => by
    obtain ⟨c', ha⟩ := h a List.mem_cons_self els c
    obtain ⟨c'', hl⟩ := exists_turns_flatMap (fun b hb => h b (List.mem_cons_of_mem a hb)) (els ++ [table a]) c'
    exact ⟨c'', by simpa using ha.append hl⟩

theorem turns_texts {context : Path} {whole : Entries → Entries} (h : Focus context whole) {es : Entries} {k : String}
    (hk : Lacks es k) : ∀ l : Option (List String),
      Turns context (whole es) (textsStatements k l) context (whole (es ++ textsEntries k l))
        (keysAt context (textsEntries k l))
  | none => by simpa [textsEntries, textsStatements, keysAt] using Turns.nil context (whole es)
  | some l => turns_assign h hk (evaluates_texts l)

theorem turns_empty {α : Type} {context : Path} {whole : Entries → Entries} (h : Focus context whole) {es : Entries}
    {k : String} (hk : Lacks es k) : ∀ l : Option (List α),
      Turns context (whole es) (emptyStatements k l) context (whole (es ++ emptyEntries k l))
        (keysAt context (emptyEntries k l))
  | none => by simpa [emptyEntries, emptyStatements, keysAt] using Turns.nil context (whole es)
  | some (_ :: _) => by simpa [emptyEntries, emptyStatements, keysAt] using Turns.nil context (whole es)
  | some [] => turns_assign h hk (evaluates_texts [])

theorem lacks_append {es fs : Entries} {k : String} (h : Lacks es k) (h' : Lacks fs k) : Lacks (es ++ fs) k :=
  List.forall_mem_append.2 ⟨h, h'⟩

theorem lacks_textsEntries {k key : String} (h : key ≠ k) (l : Option (List String)) :
    Lacks (textsEntries key l) k := by
  cases l <;> simp [Lacks, textsEntries, h]

theorem lacks_emptyEntries {α : Type} {k key : String} (h : key ≠ k) :
    ∀ l : Option (List α), Lacks (emptyEntries key l) k
  | none | some (_ :: _) => by simp [Lacks, emptyEntries]
  | some [] => by simp [Lacks, emptyEntries, h]

theorem lacks_listing {es : Entries} {k key : String} (h : Lacks es k) (hk : key ≠ k) (els : List Entries) :
    Lacks (listing es key els) k := by
  unfold listing
  split
  · exact h
  · exact lacks_append h (by simpa [Lacks] using hk)

/-- A list of tables that has elements is not said to be empty. -/
theorem emptyEntries_of_mem {α : Type} {a : α} (k : String) : ∀ {l : Option (List α)}, a ∈ l.getD [] →
    emptyEntries k l = []
  | some (_ :: _), _ => rfl

theorem turns_step {whole : Entries → Entries} (h : Focus ["partition"] whole) {base : Entries}
    (hb : Lacks base "steps") (s : Step) (els : List Entries) (c : Path) :
    Turns c (whole (listing base "steps" els)) (stepStatements s) ["partition", "steps"]
      (whole (listing base "steps" (els ++ [stepEntries s])))
      (["partition", "steps"] :: keysAt ["partition", "steps"] (stepEntries s)) := by
  have hf := h.last hb els
  have hk := turns_assign hf (by simp [Lacks] : Lacks [] "kind") (evaluates_text s.kind.name)
  have hn := turns_assign hf (by simp [Lacks] : Lacks [("kind", .text s.kind.name)] "size") (evaluates_integer s.size)
  have hs := ((turns_element h hb els c).append hk).append hn
  by_cases hl : s.leader = ""
  · simpa [stepStatements, stepEntries, keysAt, hl] using hs
  · have hl' := turns_assign hf
      (by simp [Lacks] : Lacks [("kind", .text s.kind.name), ("size", .integer s.size)] "leader") (evaluates_text s.leader)
    simpa [stepStatements, stepEntries, keysAt, hl] using hs.append hl'

theorem turns_tensor {base : Entries} (hb : Lacks base "tensor") (t : Tensor) (els : List Entries) (c : Path) :
    Turns c (listing base "tensor" els) (tensorStatements t) ["tensor"] (listing base "tensor" (els ++ [tensorEntries t]))
      (["tensor"] :: keysAt ["tensor"] (tensorEntries t)) := by
  have hf := focus_root.last hb els
  have hn := turns_assign hf (by simp [Lacks] : Lacks [] "name") (evaluates_text t.root)
  have hr := turns_texts hf (by simp [Lacks] : Lacks [("name", .text t.root)] "ranks") t.declared
  simpa [tensorStatements, tensorEntries, keysAt] using ((turns_element focus_root hb els c).append hn).append hr

theorem exists_turns_rule {base : Entries} (hb : Lacks base "partition") (r : RuleEntry) (els : List Entries)
    (c : Path) : ∃ c', Turns c (listing base "partition" els) (ruleStatements r) c'
      (listing base "partition" (els ++ [ruleEntries r])) (["partition"] :: ruleKeys r) := by
  have hf := focus_root.last hb els
  have hl : Lacks [("rank", .text r.rank)] "steps" := by simp [Lacks]
  have hr := turns_assign hf (by simp [Lacks] : Lacks [] "rank") (evaluates_text r.rank)
  have he := turns_empty hf hl r.steps
  have hs : ∀ s ∈ r.steps.getD [], Lacks ([("rank", .text r.rank)] ++ emptyEntries "steps" r.steps) "steps" := by
    intro s hs
    rw [emptyEntries_of_mem "steps" hs]
    exact hl
  obtain ⟨c', hc⟩ := exists_turns_flatMap (fun s h els c => ⟨_, turns_step hf (hs s h) s els c⟩) [] ["partition"]
  exact ⟨c', by simpa [ruleStatements, ruleEntries, ruleKeys, listing] using
    (((turns_element focus_root hb els c).append hr).append he).append hc⟩

/-- **The statements of a description make its entries.** -/
theorem exists_turns_statements (d : Description) : ∃ c, Turns [] [] d.statements c d.entries d.keys := by
  -- what stands before each list of tables lacks its key, as soon as the list has an element
  have hk : ∀ k, "output" ≠ k → "loop_order" ≠ k →
      Lacks ([("output", .text d.output)] ++ textsEntries "loop_order" d.loops) k :=
    fun k ho hl => lacks_append (by simpa [Lacks] using ho) (lacks_textsEntries hl d.loops)
  have hkt := hk "tensor" (by decide) (by decide)
  have hkp := hk "partition" (by decide) (by decide)
  have hkr : Lacks ([("output", .text d.output)] ++ textsEntries "loop_order" d.loops ++ emptyEntries "tensor" d.tensors)
      "partition" := lacks_append hkp (lacks_emptyEntries (by decide) d.tensors)
  have htl : ∀ t ∈ d.tensors.getD [], Lacks d.leadingEntries "tensor" := by
    intro t ht
    rw [leadingEntries, emptyEntries_of_mem "tensor" ht, List.append_nil]
    exact lacks_append hkt (lacks_emptyEntries (by decide) d.rules)
  have hrl : ∀ r ∈ d.rules.getD [], ∀ els, Lacks (listing d.leadingEntries "tensor" els) "partition" := by
    intro r hr els
    refine lacks_listing ?_ (by decide) els
    rw [leadingEntries, emptyEntries_of_mem "partition" hr, List.append_nil]
    exact hkr
  have ho := turns_assign focus_root (by simp [Lacks] : Lacks [] "output") (evaluates_text d.output)
  have hl := turns_texts focus_root (by simp [Lacks] : Lacks [("output", .text d.output)] "loop_order") d.loops
  have ht := turns_empty focus_root hkt d.tensors
  have hr := turns_empty focus_root hkr d.rules
  obtain ⟨c, hc⟩ := exists_turns_flatMap (fun t h els c => ⟨_, turns_tensor (htl t h) t els c⟩) [] []
  obtain ⟨c', hc'⟩ := exists_turns_flatMap (fun r h els c => exists_turns_rule (hrl r h _) r els c) [] c
  exact ⟨c', by simpa [statements, entries, keys, leadingEntries, keysAt, listing] using
    ((((ho.append hl).append ht).append hr).append hc).append hc'⟩

/-! ## Fields -/

theorem subset_append {ks ks' ls ls' : List Path} (h : ks ⊆ ks') (h' : ls ⊆ ls') : ks ++ ls ⊆ ks' ++ ls' :=
  List.append_subset.2 ⟨List.Subset.trans h (List.subset_append_left _ _),
    List.Subset.trans h' (List.subset_append_right _ _)⟩

/-- What is understood gives `a`, and at least the keys. -/
def Gives {α : Type} (x : Understood α) (a : α) (keys : List Path) : Prop := ∃ ks, x = some (a, ks) ∧ keys ⊆ ks

theorem Gives.entries {α : Type} {set : α → String → Value → Option (Understood α)} {here : Path} {a b c : α}
    {k : String}
    {v : Value} {rest : Entries} {x : Understood α} {ks ls : List Path} (hs : set a k v = some x) (hx : Gives x b ks)
    (hr : Gives (tomlEntries set here b rest) c ls) :
    Gives (tomlEntries set here a ((k, v) :: rest)) c ((here ++ [k]) :: ks ++ ls) := by
  obtain ⟨ks', rfl, hks⟩ := hx
  obtain ⟨ls', hl, hls⟩ := hr
  exact ⟨(here ++ [k]) :: ks' ++ ls', by simp [tomlEntries, hs, hl], subset_append (List.cons_subset_cons _ hks) hls⟩

theorem gives_each {α : Type} {read : Value → Understood α} {item : α → Value} {keys : α → List Path} :
    ∀ {l : List α}, (∀ a ∈ l, Gives (read (item a)) a (keys a)) → Gives (tomlEach read (l.map item)) l (l.flatMap keys)
  | [], _ => ⟨[], rfl, by simp⟩
  | a :: l, h => by
    obtain ⟨ks, ha, hks⟩ := h a List.mem_cons_self
    obtain ⟨ls, hl, hls⟩ := gives_each fun b hb => h b (List.mem_cons_of_mem a hb)
    exact ⟨ks ++ ls, by simp [tomlEach, ha, hl], subset_append hks hls⟩

theorem gives_nil {α : Type} (set : α → String → Value → Option (Understood α)) (here : Path) (a : α) :
    Gives (tomlEntries set here a []) a [] := ⟨[], rfl, by simp⟩

/-- An entry that holds no table. -/
theorem Gives.field {α : Type} {set : α → String → Value → Option (Understood α)} {here : Path} {a b c : α} {k : String}
    {v : Value} {rest : Entries} {ls : List Path} (hs : set a k v = some (some (b, [])))
    (hr : Gives (tomlEntries set here b rest) c ls) :
    Gives (tomlEntries set here a ((k, v) :: rest)) c ((here ++ [k]) :: ls) :=
  .entries hs ⟨[], rfl, List.Subset.refl []⟩ hr

theorem tomlTexts?_texts (l : List String) : tomlTexts? (.array (l.map .text)) = some l := by
  have hm : ∀ l : List String, (l.map Value.text).mapM tomlText? = some l := by
    intro l
    induction l with
    | nil => rfl
    | cons s l ih => simp [tomlText?, ih]
  rw [tomlTexts?, tomlItems?, Option.bind_some, hm]

theorem gives_step (here : Path) (s : Step) :
    Gives (tomlTable setTomlStep here ⟨⟨""⟩, 0, ""⟩ (.table (stepEntries s))) s (keysAt here (stepEntries s)) := by
  obtain ⟨kind, size, leader⟩ := s
  by_cases h : leader = ""
  · simp only [tomlTable, stepEntries, keysAt, h, if_true, List.append_nil, List.map_cons, List.map_nil]
    exact .field rfl (.field rfl (gives_nil ..))
  · simp only [tomlTable, stepEntries, keysAt, h, if_false, List.cons_append, List.nil_append, List.map_cons,
      List.map_nil]
    exact .field rfl (.field rfl (.field rfl (gives_nil ..)))

theorem gives_tensor (t : Tensor) :
    Gives (tomlTable setTomlTensor ["tensor"] ⟨"", none⟩ (.table (tensorEntries t))) t
      (keysAt ["tensor"] (tensorEntries t)) := by
  obtain ⟨root, _ | l⟩ := t
  · simp only [tomlTable, tensorEntries, textsEntries, keysAt, List.append_nil, List.map_cons, List.map_nil]
    exact .field rfl (gives_nil ..)
  · have hl : setTomlTensor ⟨root, none⟩ "ranks" (.array (l.map .text)) = some (some (⟨root, some l⟩, [])) := by
      change plainly _ (tomlTexts? (.array (l.map .text))) = _
      rw [tomlTexts?_texts]
      rfl
    simp only [tomlTable, tensorEntries, textsEntries, keysAt, List.cons_append, List.nil_append, List.map_cons,
      List.map_nil]
    exact .field rfl (.field hl (gives_nil ..))

/-- A header that comes before each part need be understood only once. -/
theorem flatMap_cons_subset {α : Type} (k : Path) (keys : α → List Path) (l : List α) :
    l.flatMap (fun a => k :: keys a) ⊆ k :: l.flatMap keys := by
  intro x hx
  obtain ⟨a, ha, hx⟩ := List.mem_flatMap.1 hx
  rcases List.mem_cons.1 hx with rfl | hx
  · exact List.mem_cons_self
  · exact List.mem_cons_of_mem _ (List.mem_flatMap.2 ⟨a, ha, hx⟩)

theorem Gives.mono {α : Type} {x : Understood α} {a : α} {ks ls : List Path} (h : Gives x a ks) (hs : ls ⊆ ks) :
    Gives x a ls := by
  obtain ⟨ms, hx, hm⟩ := h
  exact ⟨ms, hx, List.Subset.trans hs hm⟩

theorem Gives.map {α β : Type} {x : Understood α} {a : α} {ks : List Path} (h : Gives x a ks) (f : α → β) :
    Gives (x.map (fun r => (f r.1, r.2))) (f a) ks := by
  obtain ⟨ms, rfl, hm⟩ := h
  exact ⟨ms, rfl, hm⟩

theorem tomlEntries_append {α : Type} (set : α → String → Value → Option (Understood α)) (here : Path) (fs : Entries) :
    ∀ (es : Entries) (a : α), tomlEntries set here a (es ++ fs) =
      (tomlEntries set here a es).bind fun r => (tomlEntries set here r.1 fs).map fun q => (q.1, r.2 ++ q.2)
  | [], a => by simp [tomlEntries]
  | (k, v) :: es, a => by
    rw [List.cons_append, tomlEntries, tomlEntries]
    split
    · exact tomlEntries_append set here fs es a
    · rfl
    · rename_i b ks _
      rw [tomlEntries_append set here fs es b]
      cases tomlEntries set here b es with
      | none => rfl
      | some r => simp [Function.comp_def]

theorem Gives.append {α : Type} {set : α → String → Value → Option (Understood α)} {here : Path} {a b c : α}
    {es fs : Entries} {ks ls : List Path} (h : Gives (tomlEntries set here a es) b ks)
    (h' : Gives (tomlEntries set here b fs) c ls) : Gives (tomlEntries set here a (es ++ fs)) c (ks ++ ls) := by
  obtain ⟨ks', hk, hks⟩ := h
  obtain ⟨ls', hl, hls⟩ := h'
  exact ⟨ks' ++ ls', by simp [tomlEntries_append, hk, hl], subset_append hks hls⟩

/-- An entry that holds a list of tables. -/
theorem Gives.tables {α β : Type} {set : β → String → Value → Option (Understood β)} {here : Path} {k : String} {b : β}
    {read : Value → Understood α} {table : α → Entries} {keys : α → List Path} (put : List α → β) (l : List α)
    (hs : set b k (.tables (l.map table)) =
      some ((tomlList read (.tables (l.map table))).map fun x => (put x.1, x.2)))
    (h : ∀ a ∈ l, Gives (read (.table (table a))) a (keys a)) :
    Gives (tomlEntries set here b [(k, .tables (l.map table))]) (put l)
      (l.flatMap fun a => (here ++ [k]) :: keys a) := by
  have hl : Gives (tomlList read (.tables (l.map table))) l (l.flatMap keys) := by
    simpa [tomlList, tomlItems?, Function.comp_def] using gives_each h
  refine (Gives.entries hs (hl.map put) (gives_nil ..)).mono ?_
  simpa using flatMap_cons_subset (here ++ [k]) keys l

theorem gives_rule (r : RuleEntry) :
    Gives (tomlTable (setTomlRule ["partition"]) ["partition"] ⟨"", none⟩ (.table (ruleEntries r))) r (ruleKeys r) := by
  obtain ⟨rank, _ | _ | ⟨s, ss⟩⟩ := r
  · simp only [tomlTable, ruleEntries, ruleKeys, emptyEntries, keysAt, listing]
    exact .field rfl (gives_nil ..)
  · simp only [tomlTable, ruleEntries, ruleKeys, emptyEntries, keysAt, listing]
    exact .field rfl (.field rfl (gives_nil ..))
  · have hs : Gives (tomlEntries (setTomlRule ["partition"]) ["partition"] ⟨rank, none⟩
        [("steps", .tables ((s :: ss).map stepEntries))]) ⟨rank, some (s :: ss)⟩
          ((s :: ss).flatMap fun s => ["partition", "steps"] :: keysAt ["partition", "steps"] (stepEntries s)) := by
      refine .tables (fun l => RuleEntry.mk rank (some l)) (s :: ss) ?_ fun s _ => gives_step _ s
      rfl
    simp only [tomlTable, ruleEntries, ruleKeys, emptyEntries, keysAt, listing]
    exact .field rfl hs

/-! ## Files -/

/-- A list, if it is there and has nothing in it. -/
def emptied {α : Type} : Option (List α) → Option (List α)
  | some [] => some []
  | _ => none

theorem listing_eq (es : Entries) (k : String) (els : List Entries) : listing es k els = es ++ listing [] k els := by
  unfold listing
  split <;> simp

theorem gives_tensors (o : String) (l : Option (List String)) (r : Option (List RuleEntry)) (ts : Option (List Tensor)) :
    Gives (tomlEntries setTomlEntry [] ⟨o, l, emptied ts, r⟩ (listing [] "tensor" ((ts.getD []).map tensorEntries)))
      ⟨o, l, ts, r⟩ ((ts.getD []).flatMap (fun t => ["tensor"] :: keysAt ["tensor"] (tensorEntries t))) := by
  obtain _ | _ | ⟨t, ts⟩ := ts
  · exact gives_nil ..
  · exact gives_nil ..
  · refine .tables (fun l' => Description.mk o l (some l') r) (t :: ts) ?_ fun t _ => gives_tensor t
    rfl

theorem gives_rules (o : String) (l : Option (List String)) (t : Option (List Tensor)) (rs : Option (List RuleEntry)) :
    Gives (tomlEntries setTomlEntry [] ⟨o, l, t, emptied rs⟩ (listing [] "partition" ((rs.getD []).map ruleEntries)))
      ⟨o, l, t, rs⟩ ((rs.getD []).flatMap (fun r => ["partition"] :: ruleKeys r)) := by
  obtain _ | _ | ⟨r, rs⟩ := rs
  · exact gives_nil ..
  · exact gives_nil ..
  · refine .tables (fun l' => Description.mk o l t (some l')) (r :: rs) ?_ fun r _ => gives_rule r
    rfl

theorem gives_leading (d : Description) :
    Gives (tomlEntries setTomlEntry [] empty d.leadingEntries) ⟨d.output, d.loops, emptied d.tensors, emptied d.rules⟩
      (keysAt [] d.leadingEntries) := by
  obtain ⟨o, l, ts, rs⟩ := d
  have ho : Gives (tomlEntries setTomlEntry [] empty [("output", .text o)]) ⟨o, none, none, none⟩ [["output"]] :=
    .field rfl (gives_nil ..)
  have hl : Gives (tomlEntries setTomlEntry [] ⟨o, none, none, none⟩ (textsEntries "loop_order" l)) ⟨o, l, none, none⟩
      (keysAt [] (textsEntries "loop_order" l)) := by
    cases l with
    | none => exact gives_nil ..
    | some l =>
      refine .field ?_ (gives_nil ..)
      change plainly _ (tomlTexts? (.array (l.map .text))) = _
      rw [tomlTexts?_texts]
      rfl
  have ht : Gives (tomlEntries setTomlEntry [] ⟨o, l, none, none⟩ (emptyEntries "tensor" ts))
      ⟨o, l, emptied ts, none⟩ (keysAt [] (emptyEntries "tensor" ts)) := by
    obtain _ | _ | _ := ts
    · exact gives_nil ..
    · exact .field rfl (gives_nil ..)
    · exact gives_nil ..
  have hr : Gives (tomlEntries setTomlEntry [] ⟨o, l, emptied ts, none⟩ (emptyEntries "partition" rs))
      ⟨o, l, emptied ts, emptied rs⟩ (keysAt [] (emptyEntries "partition" rs)) := by
    obtain _ | _ | _ := rs
    · exact gives_nil ..
    · exact .field rfl (gives_nil ..)
    · exact gives_nil ..
  simpa [leadingEntries, keysAt] using ((ho.append hl).append ht).append hr

/-- **Every entry of a description sets the field it came from**, and every key is understood. -/
theorem gives_entries (d : Description) : Gives (tomlEntries setTomlEntry [] empty d.entries) d d.keys := by
  rw [entries, listing_eq, listing_eq d.leadingEntries]
  exact ((gives_leading d).append (gives_tensors ..)).append (gives_rules ..)

/-- **A description comes back from its table file as it was**: any texts, any sizes that fit a word, and each list left
out, empty or filled. -/
theorem readToml_writeToml {d : Description} (h : d.Sized) : readToml d.writeToml = .ok d := by
  obtain ⟨c, ht⟩ := exists_turns_statements d
  obtain ⟨doc, hroot, hkeys, hadd⟩ := ht .empty rfl
  obtain ⟨ks, hks, hsub⟩ := gives_entries d
  have hdoc : Toml.Document.ofStatements d.statements = some doc := by
    rw [Toml.Document.ofStatements, ← List.append_nil d.statements, hadd, Toml.Document.addStatements]
  have hk : doc.keys.filter (fun k => !ks.contains k) = [] := by
    rw [hkeys, List.filter_eq_nil_iff]
    intro k hk
    simpa using hsub hk
  rw [readToml, readStatements_writeToml h, Option.bind_some, hdoc]
  simp only [hroot, hks, hk]

end Description
end LoopNest
