import LoopNest.Proofs.Node.Identity
import LoopNest.Proofs.Text.Unambiguous
/-!
# Proofs.Node.Labels — labels can be read back

A label is a title and, between brackets, names with commas between them; a tuple among them has brackets of its own,
and a comma before the closing one if it has a single id.  A name ends at the first mark (`readsBack_name`), and a list
of names where no comma and blank follow (`readsBack_joined`).  So a label tells where it ends and which node it is of,
whatever stands behind it (`Node.readsBack_label`).
-/
namespace LoopNest

/-! ## Names -/

/-- The marks of a label, and the separator of a tuple. -/
def marks : List Char := ['(', ')', '[', ']', ',', tupleSeparator]

def isMark (c : Char) : Bool := marks.contains c

def Marked (s : List Char) : Prop := ∃ m t, isMark m = true ∧ s = m :: t

theorem marked_cons {c : Char} (hc : isMark c = true) (s : List Char) : Marked (c :: s) := ⟨c, s, hc, rfl⟩

theorem not_marked_cons {c : Char} (hc : isMark c = false) (s : List Char) : ¬ Marked (c :: s) := by
  rintro ⟨m, t, hm, heq⟩
  rw [← (List.cons.inj heq).1, hc] at hm
  cases hm

/-- **A name that labels show**: it has a character, and none of them is a mark. -/
def Clear (x : String) : Prop := x ≠ "" ∧ ∀ c ∈ x.toList, isMark c = false

instance (x : String) : Decidable (Clear x) :=
  decidable_of_iff (x ≠ "" ∧ x.toList.all (fun c => !isMark c) = true) (by simp [Clear])

namespace Clear

theorem plain {x : String} (h : Clear x) : Plain x := ⟨h.1, fun hmem => absurd (h.2 _ hmem) (by decide)⟩

/-- Names of letters, digits and underscores are clear. -/
theorem of_tail {x : String} (hne : x ≠ "") (h : ∀ c ∈ x.toList, Identifier.isTail c = true) : Clear x := by
  have hmarks : marks.all (fun m => !Identifier.isTail m) = true := by decide
  refine ⟨hne, fun c hc => ?_⟩
  rw [← Bool.not_eq_true, isMark, List.contains_iff_mem]
  intro hmark
  have htail := List.all_eq_true.1 hmarks c hmark
  rw [h c hc] at htail
  cases htail

theorem not_marked {x : String} (h : Clear x) (s : List Char) : ¬ Marked (x.toList ++ s) := by
  obtain ⟨c, cs, hx⟩ := List.exists_cons_of_ne_nil (mt String.toList_eq_nil_iff.1 h.1)
  rw [hx]
  exact not_marked_cons (h.2 c (hx ▸ List.mem_cons_self)) _

end Clear

/-- **A word ends at the first mark.** -/
theorem readsBack_word : ReadsBack (fun u : List Char => ∀ c ∈ u, isMark c = false) Marked id := by
  have hletter : ReadsBack (fun c => isMark c = false) (fun _ => True) (fun c => [c]) :=
    fun _ _ _ _ _ _ _ _ heq => List.cons.inj heq
  -- a word is the list of its letters, each printed as itself
  have hread : ReadsBack _ Marked (List.flatMap fun c => [c]) :=
    hletter.flatMap (fun _ _ _ => trivial) (fun c s hc => not_marked_cons hc s) fun _ _ => trivial
  rwa [funext fun u : List Char => List.flatMap_singleton' u] at hread

theorem readsBack_name : ReadsBack Clear Marked String.toList :=
  readsBack_word.view String.toList (fun _ hx => hx.2) (fun _ _ => rfl) fun _ _ _ _ => String.toList_inj.1

theorem toList_joined : ∀ xs : List String, (Text.joined ", " xs).toList = withCommas [] String.toList xs
  | [] => rfl
  | [x] => by simp [Text.joined, withCommas, afterCommas]
  | x :: y :: xs => by
    rw [Text.joined, String.toList_append, String.toList_append, toList_joined (y :: xs), List.append_assoc]
    rfl

/-- **Names with commas between them can be read back.** -/
theorem readsBack_joined :
    ReadsBack (fun xs => ∀ x ∈ xs, Clear x) (Over Marked) (fun xs => (Text.joined ", " xs).toList) := by
  rw [funext toList_joined]
  exact readsBack_name.withCommas (marked_cons (by decide)) (fun _ hs => hs) fun x s hx hs => hx.not_marked s hs.1

/-! ## Tuples -/

namespace Node

def tupleEnd (ids : List String) : List Char := if ids.length = 1 then [',', ')'] else [')']

theorem toList_tupleText (ids : List String) :
    (tupleText ids).toList = '(' :: ((Text.joined ", " ids).toList ++ tupleEnd ids) := by
  match ids with
  | [] => rfl
  | [x] => simp [tupleText, tupleEnd, Text.joined]
  | x :: y :: ids => simp [tupleText, tupleEnd]

theorem over_tupleEnd (ids : List String) (s : List Char) : Over Marked (tupleEnd ids ++ s) := by
  unfold tupleEnd
  split
  · exact ⟨marked_cons (by decide) _, by simp⟩
  · exact ⟨marked_cons (by decide) _, by simp⟩

/-- **A tuple can be read back**, whatever follows. -/
theorem readsBack_tupleText :
    ReadsBack (fun ids => ∀ x ∈ ids, Clear x) (fun _ => True) (fun ids => (tupleText ids).toList) := by
  intro xs ys s t hxs hys _ _ heq
  dsimp only at heq
  rw [toList_tupleText, toList_tupleText, List.cons_append, List.cons_append, List.cons.injEq, List.append_assoc,
    List.append_assoc] at heq
  obtain ⟨rfl, hend⟩ := readsBack_joined xs ys _ _ hxs hys (over_tupleEnd xs s) (over_tupleEnd ys t) heq.2
  exact ⟨rfl, List.append_cancel_left hend⟩

end Node

/-! ## Labels -/

namespace Kind

/-- The title of the labels of a kind. -/
def title : Kind → String
  | invalid => "InvalidNode"
  | tensor => "TensorNode"
  | rank => "RankNode"
  | fiber => "FiberNode"
  | loop => "LoopNode"
  | part => "PartNode"
  | fromFiber => "FromFiberNode"
  | swizzle => "SRNode"
  | other => "OtherNode"

theorem clear_title (k : Kind) : Clear k.title := by cases k <;> decide

def ofTitle? (s : String) : Option Kind := all.find? (fun k => k.title == s)

theorem ofTitle?_title (k : Kind) : ofTitle? k.title = some k := by cases k <;> decide

theorem title_inj {k l : Kind} (h : k.title = l.title) : k = l := by
  have hk := ofTitle?_title k
  rw [h, ofTitle?_title l] at hk
  exact (Option.some.inj hk).symm

end Kind

/-- A name, and the others in a way of their own. -/
def headed (rest : List String → List Char) : List String → List Char
  | [] => []
  | x :: xs => x.toList ++ rest xs

/-- **What stands between the brackets of a label**: the names, of which a partitioning and a change of the rank order
show all but the first as a list of its own. -/
def Kind.shown : Kind → List String → List Char
  | .part => headed fun ids => [',', ' '] ++ (Node.tupleText ids).toList
  | .swizzle => headed fun ids => [',', ' ', '['] ++ ((Text.joined ", " ids).toList ++ [']'])
  | _ => fun names => (Text.joined ", " names).toList

/-- A bracket closes what is shown. -/
def AtBracket (s : List Char) : Prop := ∃ t, s = ')' :: t

theorem AtBracket.over {s : List Char} (h : AtBracket s) : Over Marked s := by
  obtain ⟨t, rfl⟩ := h
  exact ⟨marked_cons (by decide) t, by simp⟩

/-- The names of a label: there is one, and each is clear. -/
structure Names (xs : List String) : Prop where
  ne_nil : xs ≠ []
  clear : ∀ x ∈ xs, Clear x

/-- A name and what is shown of the others, if that begins with a mark. -/
theorem readsBack_headed {rest : List String → List Char}
    (hrest : ReadsBack (fun xs => ∀ x ∈ xs, Clear x) AtBracket rest) (hmark : ∀ xs s, Marked (rest xs ++ s)) :
    ReadsBack Names AtBracket (headed rest) := by
  have hpair := readsBack_name.seq (fun _ _ => hrest) fun _ xs s _ _ _ => hmark xs s
  intro xs ys s t hxs hys hs ht heq
  obtain ⟨x, xs, rfl⟩ := List.exists_cons_of_ne_nil hxs.ne_nil
  obtain ⟨y, ys, rfl⟩ := List.exists_cons_of_ne_nil hys.ne_nil
  obtain ⟨hsame, rfl⟩ := hpair (x, xs) (y, ys) s t (List.forall_mem_cons.1 hxs.clear)
    (List.forall_mem_cons.1 hys.clear) hs ht heq
  obtain ⟨rfl, rfl⟩ := Prod.mk.inj hsame
  exact ⟨rfl, rfl⟩

/-- **What stands between the brackets of a label can be read back**, if the kind is known. -/
theorem readsBack_shown (k : Kind) : ReadsBack Names AtBracket k.shown := by
  have hplain : ReadsBack Names AtBracket (fun xs => (Text.joined ", " xs).toList) :=
    fun xs ys s t hxs hys hs ht => readsBack_joined xs ys s t hxs.clear hys.clear hs.over ht.over
  cases k with
  | part =>
    refine readsBack_headed ?_ fun _ _ => marked_cons (by decide) _
    exact (Node.readsBack_tupleText.mono fun _ _ => trivial).behind [',', ' ']
  | swizzle =>
    refine readsBack_headed ?_ fun _ _ => marked_cons (by decide) _
    exact (readsBack_joined.before [']'] fun _ _ => ⟨marked_cons (by decide) _, by simp⟩).behind [',', ' ', '[']
  | _ => exact hplain

namespace Recipe

/-- The names among the arguments. -/
def names : Recipe → List String
  | .tensor root => [root]
  | .rank root x => [root, x]
  | .fiber name => [name]
  | .loop x => [x]
  | .part root ids => root :: ids
  | .fromFiber root x => [root, x]
  | .swizzle root ids => root :: ids
  | .other point => [point.label]

/-- The way to make a node of a kind from names. -/
def ofNames? : Kind → List String → Option Recipe
  | .tensor, [root] => some (.tensor root)
  | .rank, [root, x] => some (.rank root x)
  | .fiber, [name] => some (.fiber name)
  | .loop, [x] => some (.loop x)
  | .part, root :: ids => some (.part root ids)
  | .fromFiber, [root, x] => some (.fromFiber root x)
  | .swizzle, root :: ids => some (.swizzle root ids)
  | .other, [label] => some (.other ⟨label⟩)
  | _, _ => none

theorem ofNames?_names (a : Recipe) : ofNames? a.node.kind a.names = some a := by cases a <;> rfl

theorem names_ne_nil (a : Recipe) : a.names ≠ [] := by cases a <;> simp [names]

theorem mem_names_of_mem_ids {a : Recipe} {x : String} (h : x ∈ a.ids) : x ∈ a.names := by
  cases a with
  | part root ids => exact List.mem_cons_of_mem root h
  | swizzle root ids => exact List.mem_cons_of_mem root h
  | _ => cases h

/-- **A label is the title of the kind, and the names between brackets.** -/
theorem toList_label {a : Recipe} (ha : ∀ x ∈ a.ids, Plain x) :
    a.node.label.toList = a.node.kind.title.toList ++ ('(' :: (a.node.kind.shown a.names ++ [')'])) := by
  unfold Node.label
  cases a with
  | part root ids =>
    have hids : (RankTuple.ofList ids).ids = ids := rankIds_node ha
    simp [node, Node.ofPart, Node.kind, Kind.title, Kind.shown, headed, names, hids]
  | swizzle root ids =>
    have hids : (RankTuple.ofList ids).ids = ids := rankIds_node ha
    simp [node, Node.ofSwizzle, Node.kind, Kind.title, Kind.shown, headed, names, hids]
  | _ => simp [node, Node.kind, Kind.title, Kind.shown, names, Text.joined]

theorem readsBack_label :
    ReadsBack (fun a : Recipe => ∀ x ∈ a.names, Clear x) (fun _ => True) (fun a => a.node.label.toList) := by
  have htitle : ReadsBack (fun _ => True) Marked (fun k : Kind => k.title.toList) :=
    readsBack_name.view Kind.title (fun k _ => k.clear_title) (fun _ _ => rfl) fun _ _ _ _ => Kind.title_inj
  have hbrackets : ∀ k : Kind, ReadsBack Names (fun _ => True) (fun xs => ['('] ++ (k.shown xs ++ [')'])) :=
    fun k => ((readsBack_shown k).before [')'] fun s _ => ⟨s, rfl⟩).behind ['(']
  have hlabel := htitle.seq (fun k _ => hbrackets k) fun _ _ _ _ _ _ => marked_cons (by decide) _
  refine hlabel.view (fun a => (a.node.kind, a.names)) (fun a ha => ⟨trivial, a.names_ne_nil, ha⟩)
    (fun a ha => toList_label fun x hx => (ha x (mem_names_of_mem_ids hx)).plain) fun a b _ _ heq => ?_
  obtain ⟨hkind, hnames⟩ := Prod.mk.inj heq
  have hread := ofNames?_names a
  rw [hkind, hnames, ofNames?_names b] at hread
  exact (Option.some.inj hread).symm

end Recipe

/-- **A node made from clear names**, one that a label shows. -/
def Node.Legible (n : Node) : Prop := ∃ a : Recipe, (∀ x ∈ a.names, Clear x) ∧ a.node = n

/-- **Labels can be read back**: a label tells where it ends, and which node it is of. -/
theorem Node.readsBack_label : ReadsBack Node.Legible (fun _ => True) (fun n => n.label.toList) := by
  rintro _ _ s t ⟨a, ha, rfl⟩ ⟨b, hb, rfl⟩ hs ht heq
  obtain ⟨rfl, rfl⟩ := Recipe.readsBack_label a b s t ha hb hs ht heq
  exact ⟨rfl, rfl⟩

end LoopNest
