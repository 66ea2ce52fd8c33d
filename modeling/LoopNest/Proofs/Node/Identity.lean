import LoopNest.Proofs.Program.Naming
/-!
# Proofs.Node.Identity — when two nodes are the same

A node is made in one of eight ways (`Recipe`).  It can be kept as one flat record for all kinds (`Record`), in which a
tuple of ids is a single text with separators between them and what a kind does not use is empty.  Cutting undoes
joining on plain ids (`RankTuple.cut_flat`), so the record tells how the node was made (`Recipe.recipe?_record`), and
two nodes are the same exactly if they were made in the same way from the same arguments (`Recipe.same_node_iff`).
-/
namespace LoopNest

/-! ## Tuples as one text -/

theorem piecesOf_ne_nil (cs : List Char) : piecesOf cs ≠ [] := by
  cases cs with
  | nil => simp [piecesOf]
  | cons c cs =>
    unfold piecesOf
    split
    · simp
    · split <;> simp

theorem piecesOf_append (ds : List Char) : ∀ cs : List Char,
    piecesOf (cs ++ tupleSeparator :: ds) = piecesOf cs ++ piecesOf ds
  | [] => by
    rw [List.nil_append, piecesOf.eq_def (tupleSeparator :: ds)]
    exact if_pos rfl
  | c :: cs => by
    have ih := piecesOf_append ds cs
    rw [List.cons_append, piecesOf, piecesOf]
    by_cases hc : c = tupleSeparator
    · rw [if_pos hc, if_pos hc, ih, List.cons_append]
    · obtain ⟨q, qs, hq⟩ := List.exists_cons_of_ne_nil (piecesOf_ne_nil cs)
      rw [if_neg hc, if_neg hc, ih, hq]
      rfl

namespace RankTuple

/-- The ids of a list as one text. -/
def flat (ids : List String) : String := Text.joined (String.singleton tupleSeparator) ids

/-- The ids that such a text holds. -/
def cut (s : String) : List String := if s = "" then [] else pieces [s]

theorem pieces_singleton (s : String) : pieces [s] = (piecesOf s.toList).map String.ofList := by simp [pieces]

theorem pieces_flat : ∀ {ids : List String}, ids ≠ [] → pieces [flat ids] = pieces ids
  | [_], _ => rfl
  | s :: t :: rest, _ => by
    have ih : pieces [flat (t :: rest)] = pieces (t :: rest) := pieces_flat (List.cons_ne_nil _ _)
    have hlist : (flat (s :: t :: rest)).toList = s.toList ++ tupleSeparator :: (flat (t :: rest)).toList := by
      simp [flat, Text.joined]
    calc pieces [flat (s :: t :: rest)]
        = (piecesOf s.toList ++ piecesOf (flat (t :: rest)).toList).map String.ofList := by
          rw [pieces_singleton, hlist, piecesOf_append]
      _ = pieces [s] ++ pieces [flat (t :: rest)] := by rw [List.map_append, pieces_singleton, pieces_singleton]
      _ = pieces (s :: t :: rest) := by rw [ih]; simp [pieces]

theorem flat_append_cons (s t : String) (l : List String) : flat ((s ++ t) :: l) = s ++ flat (t :: l) := by
  cases l with
  | nil => rfl
  | cons u l => simp only [flat, Text.joined, String.append_assoc]

/-- **Joining the pieces of a text gives it back.** -/
theorem flat_piecesOf : ∀ cs : List Char, flat ((piecesOf cs).map String.ofList) = String.ofList cs
  | [] => rfl
  | c :: cs => by
    have ih := flat_piecesOf cs
    obtain ⟨q, qs, hq⟩ := List.exists_cons_of_ne_nil (piecesOf_ne_nil cs)
    rw [hq, List.map_cons] at ih
    rw [piecesOf]
    by_cases hc : c = tupleSeparator
    · rw [if_pos hc, hq, List.map_cons, List.map_cons, flat, Text.joined, ← flat, ih, hc]
      simp
    · rw [if_neg hc, hq]
      have happ : String.ofList (c :: q) = String.singleton c ++ String.ofList q := by simp
      change flat (String.ofList (c :: q) :: qs.map String.ofList) = _
      rw [happ, flat_append_cons, ih]
      simp

theorem flat_pieces (s : String) : flat (pieces [s]) = s := by
  rw [pieces_singleton, flat_piecesOf, String.ofList_toList]

theorem flat_cut (s : String) : flat (cut s) = s := by
  unfold cut
  split
  · rename_i h
    rw [h]
    rfl
  · exact flat_pieces s

/-- **A tuple holds what its text is cut into**, whichever ids it is made from. -/
theorem ids_ofList (ids : List String) : (ofList ids).ids = cut (flat ids) := by
  by_cases hnil : ids = []
  · rw [hnil]
    rfl
  have hpieces := pieces_flat hnil
  have hempty : pieces ids = [""] ↔ flat ids = "" := by
    rw [← hpieces]
    constructor
    · intro h
      have hjoin := flat_pieces (flat ids)
      rw [h] at hjoin
      exact hjoin.symm
    · intro h
      rw [h]
      rfl
  unfold ofList cut
  by_cases h : flat ids = ""
  · rw [if_pos (hempty.2 h), if_pos h]
  · rw [if_neg (mt hempty.1 h), if_neg h, hpieces]

theorem cut_flat {ids : List String} (h : ∀ x ∈ ids, Plain x) : cut (flat ids) = ids := by
  rw [← ids_ofList, ofList_of_plain h]

end RankTuple

/-! ## Ways to make a node -/

/-- **A way to make a node**, with its arguments. -/
inductive Recipe where
  | tensor (root : String)
  | rank (root rank : String)
  | fiber (name : String)
  | loop (rank : String)
  | part (root : String) (ranks : List String)
  | fromFiber (root rank : String)
  | swizzle (root : String) (ranks : List String)
  | other (anchor : Anchor)
deriving DecidableEq, Repr

/-- **A node of any kind as one record**; what its kind does not use is empty. -/
structure Record where
  kind : Kind
  root : String := ""
  rank : String := ""
  ranks : String := ""
  fiber : String := ""
  anchor : Anchor := ⟨""⟩
deriving DecidableEq, Repr

/-- The record of a node. -/
def Node.record (n : Node) : Record :=
  ⟨n.kind, n.root, n.rankId, RankTuple.flat n.rankIds, n.fiberName, n.anchor⟩

namespace Recipe

/-- The node that is made. -/
def node : Recipe → Node
  | .tensor root => .tensor root
  | .rank root x => .rank root x
  | .fiber name => .fiber name
  | .loop x => .loop x
  | .part root ids => .ofPart root ids
  | .fromFiber root x => .fromFiber root x
  | .swizzle root ids => .ofSwizzle root ids
  | .other point => .other point

/-- The ids of the tuple among the arguments. -/
def ids : Recipe → List String
  | .part _ ids => ids
  | .swizzle _ ids => ids
  | _ => []

/-- The record that is filled. -/
def record : Recipe → Record
  | .tensor root => { kind := .tensor, root := root }
  | .rank root x => { kind := .rank, root := root, rank := x }
  | .fiber name => { kind := .fiber, fiber := name }
  | .loop x => { kind := .loop, rank := x }
  | .part root ids => { kind := .part, root := root, ranks := RankTuple.flat ids }
  | .fromFiber root x => { kind := .fromFiber, root := root, rank := x }
  | .swizzle root ids => { kind := .swizzle, root := root, ranks := RankTuple.flat ids }
  | .other point => { kind := .other, anchor := point }

end Recipe

/-- How a record was filled, read off its kind. -/
def Record.recipe? (r : Record) : Option Recipe :=
  match r.kind with
  | .invalid => none
  | .tensor => some (.tensor r.root)
  | .rank => some (.rank r.root r.rank)
  | .fiber => some (.fiber r.fiber)
  | .loop => some (.loop r.rank)
  | .part => some (.part r.root (RankTuple.cut r.ranks))
  | .fromFiber => some (.fromFiber r.root r.rank)
  | .swizzle => some (.swizzle r.root (RankTuple.cut r.ranks))
  | .other => some (.other r.anchor)

namespace Recipe

variable {a b : Recipe}

theorem record_node (a : Recipe) : a.node.record = a.record := by
  have hflat : ∀ ids, RankTuple.flat (RankTuple.ofList ids).ids = RankTuple.flat ids := fun ids => by
    rw [RankTuple.ids_ofList, RankTuple.flat_cut]
  cases a with
  | part root ids => exact congrArg (fun s => ({ kind := .part, root := root, ranks := s } : Record)) (hflat ids)
  | swizzle root ids => exact congrArg (fun s => ({ kind := .swizzle, root := root, ranks := s } : Record)) (hflat ids)
  | _ => rfl

theorem recipe?_record (ha : ∀ x ∈ a.ids, Plain x) : a.record.recipe? = some a := by
  cases a with
  | part root ids => exact congrArg (fun l => some (part root l)) (RankTuple.cut_flat ha)
  | swizzle root ids => exact congrArg (fun l => some (swizzle root l)) (RankTuple.cut_flat ha)
  | _ => rfl

theorem rankIds_node (ha : ∀ x ∈ a.ids, Plain x) : a.node.rankIds = a.ids := by
  cases a with
  | part root ids => exact congrArg RankTuple.ids (RankTuple.ofList_of_plain ha)
  | swizzle root ids => exact congrArg RankTuple.ids (RankTuple.ofList_of_plain ha)
  | _ => rfl

theorem record_inj (ha : ∀ x ∈ a.ids, Plain x) (hb : ∀ x ∈ b.ids, Plain x) : a.record = b.record ↔ a = b := by
  refine ⟨fun h => ?_, congrArg record⟩
  have hread := recipe?_record ha
  rw [h, recipe?_record hb] at hread
  exact (Option.some.inj hread).symm

/-- **Nodes are the same exactly if they were made alike**: in the same way, from the same arguments.  It makes no
difference whether they are compared as nodes or by their records, and the ids of a tuple are read back as they were
given.  Tensors, ranks, fibers and points may have any names; the ids of a tuple are plain, as names of ranks are, and
what rules make of plain ones. -/
theorem same_node_iff (ha : ∀ x ∈ a.ids, Plain x) (hb : ∀ x ∈ b.ids, Plain x) :
    (a.node = b.node ↔ a = b) ∧ (a.node.record = b.node.record ↔ a = b) ∧ a.node.rankIds = a.ids ∧
    (∀ x, Identifier.problem? .rank x = none → Plain x) ∧
    ∀ (r : Rule) (x : String), Plain r.rank → r.produces x = true → Plain x := by
  have hrecord : a.node.record = b.node.record ↔ a = b := by
    rw [record_node, record_node]
    exact record_inj ha hb
  exact ⟨⟨fun h => hrecord.1 (congrArg Node.record h), congrArg node⟩, hrecord, rankIds_node ha,
    fun _ => Identifier.plain_of_problem?, fun _ _ => Plain.of_produces⟩

/-- Two tuples with the same characters, of which one is cut in two: the nodes differ, and so do their records. -/
theorem same_node_iff_cut : (∀ x ∈ ["K1", "K0"], Plain x) ∧ (∀ x ∈ ["K1K0"], Plain x) ∧
    Node.ofPart "A" ["K1", "K0"] ≠ Node.ofPart "A" ["K1K0"] ∧
    (Node.ofPart "A" ["K1", "K0"]).record ≠ (Node.ofPart "A" ["K1K0"]).record ∧
    (Node.ofPart "A" ["K1", "K0"]).rankIds = ["K1", "K0"] := by
  have ha : ∀ x ∈ ["K1", "K0"], Plain x := by decide
  have hb : ∀ x ∈ ["K1K0"], Plain x := by decide
  obtain ⟨hnode, hrecord, hids, -⟩ := same_node_iff (a := .part "A" ["K1", "K0"]) (b := .part "A" ["K1K0"]) ha hb
  exact ⟨ha, hb, fun h => absurd (hnode.1 h) (by decide), fun h => absurd (hrecord.1 h) (by decide), hids⟩

end Recipe
end LoopNest
