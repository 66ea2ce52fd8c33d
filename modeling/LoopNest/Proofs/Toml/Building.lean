import Mathlib
import LoopNest.Toml.Document
/-!
# Proofs.Toml.Building — what statements make of a document

`Focus context whole` says that `whole` puts a table in the place that `context` leads to, so a change there changes
that table and nothing else.  Under a focus an assignment of a new key adds one entry (`turns_assign`), and the header
of an element adds one element to a list of tables (`turns_element`).  `Turns` puts such steps together; it follows the
entries and the keys of a document only, since nothing else decides what a new key does.
-/
namespace LoopNest
namespace Toml
namespace Document

/-! ## Entries -/

/-- No entry has the key. -/
def Lacks (entries : Entries) (key : String) : Prop := ∀ e ∈ entries, e.1 ≠ key

theorem Lacks.any_eq_false {es : Entries} {k : String} (h : Lacks es k) : es.any (fun e => e.1 == k) = false := by
  rw [List.any_eq_false]
  exact fun e he => by simpa using h e he

theorem Lacks.setEntry {es : Entries} {k : String} (h : Lacks es k) (v : Value) :
    Document.setEntry es k v = es ++ [(k, v)] := by
  simp [Document.setEntry, h.any_eq_false]

theorem Lacks.lookup_eq_none {es : Entries} {k : String} (h : Lacks es k) : List.lookup k es = none := by
  rw [List.lookup_eq_none_iff]
  intro e he
  simpa using (h e he).symm

theorem Lacks.lookup_last {es : Entries} {k : String} (h : Lacks es k) (v : Value) :
    List.lookup k (es ++ [(k, v)]) = some v := by
  simp [List.lookup_append, h.lookup_eq_none]

theorem Lacks.setEntry_last {es : Entries} {k : String} (h : Lacks es k) (v w : Value) :
    Document.setEntry (es ++ [(k, v)]) k w = es ++ [(k, w)] := by
  have hm : es.map (fun e => if e.1 = k then (k, w) else e) = es :=
    (List.map_congr_left fun e he => by simp [h e he]).trans (List.map_id es)
  simp [Document.setEntry, hm]

/-- The entries with a list of tables after them, as long as it has elements. -/
def listing (entries : Entries) (key : String) (elements : List Entries) : Entries :=
  if elements = [] then entries else entries ++ [(key, .tables elements)]

theorem listing_snoc (es : Entries) (k : String) (els : List Entries) (t : Entries) :
    listing es k (els ++ [t]) = es ++ [(k, .tables (els ++ [t]))] := by
  simp [listing]

theorem Lacks.lookup_listing {es : Entries} {k : String} (h : Lacks es k) (els : List Entries) :
    List.lookup k (listing es k els) = if els = [] then none else some (.tables els) := by
  by_cases hels : els = []
  · simp [listing, hels, h.lookup_eq_none]
  · simp [listing, hels, h.lookup_last]

/-! ## Places -/

theorem entriesAt_append : ∀ (p q : Path) (es : Entries), entriesAt (p ++ q) es = (entriesAt p es).bind (entriesAt q)
  | [], q, es => rfl
  | k :: p, q, es => by
    rw [List.cons_append, entriesAt, entriesAt]
    split
    · exact entriesAt_append p q _
    · rename_i els _
      cases els.getLast? with
      | none => rfl
      | some last => exact entriesAt_append p q last
    · rfl

theorem changeAt_append (f : Entries → Option Entries) : ∀ (p q : Path) (es : Entries),
    changeAt f (p ++ q) es = changeAt (changeAt f q) p es
  | [], q, es => rfl
  | k :: p, q, es => by
    rw [List.cons_append, changeAt, changeAt]
    split
    · rw [changeAt_append f p q]
    · split
      · rw [changeAt_append f p q]
      · rfl
    · rfl

theorem pave_append : ∀ (p q : Path) (done : Path) (d : Document),
    d.pave done (p ++ q) = (d.pave done p).bind (fun d' => d'.pave (done ++ p) q)
  | [], q, done, d => by simp [pave]
  | k :: p, q, done, d => by
    rw [List.cons_append, pave, pave]
    split
    · rfl
    · split
      · rw [Option.bind_assoc]
        congr 1
        funext r
        rw [pave_append p q, List.append_assoc, List.singleton_append]
      · rw [pave_append p q, List.append_assoc, List.singleton_append]
      · rw [pave_append p q, List.append_assoc, List.singleton_append]
      · rfl

/-- **A place for a table**: `context` leads to the table that `whole` puts there. -/
structure Focus (context : Path) (whole : Entries → Entries) : Prop where
  entriesAt : ∀ es, Document.entriesAt context (whole es) = some es
  changeAt : ∀ f es, Document.changeAt f context (whole es) = (f es).map whole
  pave : ∀ (d : Document) es, d.root = whole es → d.pave [] context = some d

theorem focus_root : Focus [] id where
  entriesAt _ := rfl
  changeAt f es := by simp [Document.changeAt]
  pave _ _ _ := rfl

/-- The last element of a list of tables is a place of its own. -/
theorem Focus.last {context : Path} {whole : Entries → Entries} (h : Focus context whole) {base : Entries} {k : String}
    (hb : Lacks base k) (els : List Entries) :
    Focus (context ++ [k]) (fun t => whole (listing base k (els ++ [t]))) where
  entriesAt t := by
    rw [entriesAt_append, h.entriesAt, Option.bind_some, Document.entriesAt, listing_snoc, hb.lookup_last]
    simp [Document.entriesAt]
  changeAt f t := by
    rw [changeAt_append, h.changeAt, Document.changeAt, listing_snoc, hb.lookup_last]
    simp [Document.changeAt, listing_snoc, hb.setEntry_last, Function.comp_def]
  pave d t hd := by
    rw [pave_append, h.pave d _ hd, Option.bind_some, List.nil_append, Document.pave, hd, h.entriesAt]
    simp only [listing_snoc, hb.lookup_last]
    rfl

/-! ## Statements -/

/-- The value of an expression that opens no table. -/
def Evaluates (e : Expr) (v : Value) : Prop :=
  ∀ context key inList (d : Document), ∃ d' : Document,
    evaluate context key inList e d = some (v, d') ∧ d'.root = d.root ∧ d'.keys = d.keys

theorem evaluates_text (s : String) : Evaluates (.text s) (.text s) :=
  fun _ _ _ d => ⟨d, by rw [evaluate], rfl, rfl⟩

theorem evaluates_integer (i : Int) : Evaluates (.integer i) (.integer i) :=
  fun _ _ _ d => ⟨d, by rw [evaluate], rfl, rfl⟩

theorem evaluateItems_texts (context : Path) (key : String) : ∀ (l : List String) (d : Document),
    evaluateItems context key (l.map .text) d = some (l.map .text, d)
  | [], d => by rw [List.map_nil, evaluateItems, List.map_nil]
  | s :: l, d => by
    rw [List.map_cons, evaluateItems, evaluate]
    simp [evaluateItems_texts context key l d]

theorem evaluates_texts (l : List String) : Evaluates (.array (l.map .text)) (.array (l.map .text)) := by
  intro context key inList d
  refine ⟨d.note (notePath context key) true, ?_, rfl, rfl⟩
  rw [evaluate, evaluateItems_texts]
  rfl

/-- **What statements make of a document**: they turn the entries `r` into `r'`, the header into `context'`, and add
`keys`, whatever statements come after them. -/
def Turns (context : Path) (r : Entries) (ss : List Statement) (context' : Path) (r' : Entries) (keys : List Path) :
    Prop :=
  ∀ d : Document, d.root = r → ∃ d' : Document, d'.root = r' ∧ d'.keys = d.keys ++ keys ∧
    ∀ rest, d.addStatements context (ss ++ rest) = d'.addStatements context' rest

theorem Turns.nil (context : Path) (r : Entries) : Turns context r [] context r [] :=
  fun d hd => ⟨d, hd, by simp, fun _ => rfl⟩

theorem Turns.append {c c' c'' : Path} {r r' r'' : Entries} {ss rs : List Statement} {ks ls : List Path}
    (h : Turns c r ss c' r' ks) (h' : Turns c' r' rs c'' r'' ls) : Turns c r (ss ++ rs) c'' r'' (ks ++ ls) := by
  intro d hd
  obtain ⟨d', hr, hk, hs⟩ := h d hd
  obtain ⟨d'', hr', hk', hs'⟩ := h' d' hr
  refine ⟨d'', hr', by rw [hk', hk, List.append_assoc], fun rest => ?_⟩
  rw [List.append_assoc, hs, hs']

/-- An assignment of a new key adds one entry. -/
theorem turns_assign {context : Path} {whole : Entries → Entries} (h : Focus context whole) {es : Entries} {k : String}
    (hk : Lacks es k) {e : Expr} {v : Value} (he : Evaluates e v) :
    Turns context (whole es) [.assign [k] e] context (whole (es ++ [(k, v)])) [context ++ [k]] := by
  intro d hd
  obtain ⟨d', hv, hr, hks⟩ := he context k false (d.addKey (context ++ [k]))
  have hdef : d'.define context k v = some { d' with root := whole (es ++ [(k, v)]) } := by
    have : d'.root = whole es := hr.trans hd
    simp [define, this, h.entriesAt, hk.any_eq_false, h.changeAt, hk.setEntry]
  refine ⟨({ d' with root := whole (es ++ [(k, v)]) } : Document).note (notePath context k) (isList v), rfl, hks,
    fun rest => ?_⟩
  rw [List.singleton_append, addStatements, addStatement]
  simp only [List.reverse_singleton, List.reverse_nil, openParents, hv, hdef]
  rfl

/-- The header of an element adds one element, in which the statements after it stand. -/
theorem turns_element {context : Path} {whole : Entries → Entries} (h : Focus context whole) {base : Entries}
    {k : String} (hb : Lacks base k) (els : List Entries) (c : Path) :
    Turns c (whole (listing base k els)) [.element (context ++ [k])] (context ++ [k])
      (whole (listing base k (els ++ [[]]))) [context ++ [k]] := by
  intro d hd
  have hopen : d.openTable (context ++ [k]) true = some { d with root := whole (listing base k (els ++ [[]])) } := by
    simp only [openTable, List.reverse_append, List.reverse_singleton, List.singleton_append, List.reverse_reverse,
      h.pave d _ hd, if_true, hd, h.changeAt, hb.lookup_listing]
    by_cases hels : els = []
    · simp [hels, listing, hb.setEntry]
    · simp [hels, listing, hb.setEntry_last]
  refine ⟨(({ d with root := whole (listing base k (els ++ [[]])) } : Document).note (context ++ [k]) false).addKey
    (context ++ [k]), rfl, rfl, fun rest => ?_⟩
  rw [List.singleton_append, addStatements, addStatement, hopen]
  rfl

end Document
end Toml
end LoopNest
