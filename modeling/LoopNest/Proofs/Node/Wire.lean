import Mathlib
import LoopNest.Node.Wire
import LoopNest.Proofs.Node.Tuple
import LoopNest.Proofs.Json.Reading
/-!
# Proofs.Node.Wire — nodes as objects, there and back

A node is written with those of its arguments that are not empty, and read with an empty one for each that is missing,
so the members give all arguments back whichever were left out (`objectOver_members`).  Which of them count is told by
the kind (`Made.node_draft`), and a tuple that is made again from the ids it was written with is the same tuple.
-/
namespace LoopNest
namespace Node

/-! ## Members -/

/-- The members of the object for a node with these arguments. -/
def members (kind root rank : String) (ranks : List String) (fiber anchor : String) : List (String × Json) :=
  ("kind", .string kind) :: optionalText "tensor" root ++ optionalText "rank" rank ++ optionalTexts "ranks" ranks ++
    optionalText "fiber" fiber ++ optionalText "anchor" anchor

theorem toJson?_of_ne_blank {n : Node} (h : n ≠ .blank) :
    n.toJson? = some (.object (members n.kind.name n.root n.rankId n.rankIds n.fiberName n.anchor.label)) := by
  cases n with
  | blank => exact absurd rfl h
  | _ => rfl

theorem foldlM_optionalText {name value : String} {d e : Draft} (hset : d.set name (.string value) = some e)
    (hempty : value = "" → d = e) : (optionalText name value).foldlM (fun a m => a.set m.1 m.2) d = some e := by
  unfold optionalText
  by_cases h : value = ""
  · rw [if_pos h, hempty h]
    rfl
  · rw [if_neg h, List.foldlM_cons, hset]
    rfl

/-- A list of ranks that is empty is left out, and is not given when it is read. -/
theorem foldlM_optionalTexts {d : Draft} (hd : d.ranks = none) (ranks : List String) :
    (optionalTexts "ranks" ranks).foldlM (fun a m => a.set m.1 m.2) d =
      some { d with ranks := if ranks.isEmpty then none else some ranks } := by
  unfold optionalTexts
  by_cases h : ranks.isEmpty = true
  · rw [if_pos h, if_pos h, ← hd]
    rfl
  · have hset : d.set "ranks" (.array (ranks.map .string)) = some { d with ranks := some ranks } := by
      change (Json.listOver "" Json.textOver d.ranks (.array (ranks.map .string))).map _ = _
      rw [hd, Json.listOver, Option.getD_none, Json.itemsOver_map fun _ _ => rfl]
      rfl
    rw [if_neg h, if_neg h, List.foldlM_cons, hset]
    rfl

/-- **The members give all arguments back**, those that were left out as empty ones. -/
theorem objectOver_members (kind root rank : String) (ranks : List String) (fiber anchor : String) :
    Json.objectOver Draft.set {} (.object (members kind root rank ranks fiber anchor)) =
      some ⟨kind, root, rank, if ranks.isEmpty then none else some ranks, fiber, anchor⟩ := by
  have hkind : Draft.set {} "kind" (.string kind) = some { kind := kind } := rfl
  change (members kind root rank ranks fiber anchor).foldlM (fun a m => Draft.set a m.1 m.2) ({} : Draft) = _
  unfold members
  -- every argument but the kind is empty at first, and each member is given once
  simp only [List.cons_append, List.foldlM_cons, hkind, List.foldlM_append, Option.bind_eq_bind, Option.bind_some]
  rw [foldlM_optionalText (e := { kind := kind, root := root }) rfl (by rintro rfl; rfl), Option.bind_some,
    foldlM_optionalText (e := { kind := kind, root := root, rank := rank }) rfl (by rintro rfl; rfl), Option.bind_some,
    foldlM_optionalTexts rfl, Option.bind_some,
    foldlM_optionalText (e := ⟨kind, root, rank, if ranks.isEmpty then none else some ranks, fiber, ""⟩) rfl
      (by rintro rfl; rfl), Option.bind_some,
    foldlM_optionalText (e := ⟨kind, root, rank, if ranks.isEmpty then none else some ranks, fiber, anchor⟩) rfl
      (by rintro rfl; rfl)]

theorem fits_members (kind root rank : String) (ranks : List String) (fiber anchor : String) :
    Json.Fits 2 (.object (members kind root rank ranks fiber anchor)) := by
  have htext : ∀ name value, ∀ m ∈ optionalText name value, Json.Fits 1 m.2 := by
    intro name value m hm
    unfold optionalText at hm
    split at hm
    · cases hm
    · rw [List.mem_singleton.1 hm]
      exact .string 1 value
  have htexts : ∀ m ∈ optionalTexts "ranks" ranks, Json.Fits 1 m.2 := by
    intro m hm
    unfold optionalTexts at hm
    split at hm
    · cases hm
    · rw [List.mem_singleton.1 hm]
      refine .array fun v hv => ?_
      obtain ⟨s, -, rfl⟩ := List.mem_map.1 hv
      exact .string 0 s
  refine .object fun m hm => ?_
  unfold members at hm
  simp only [List.cons_append, List.mem_cons, List.mem_append] at hm
  rcases hm with rfl | (((hm | hm) | hm) | hm) | hm
  · exact .string 1 kind
  · exact htext _ _ m hm
  · exact htext _ _ m hm
  · exact htexts m hm
  · exact htext _ _ m hm
  · exact htext _ _ m hm

/-! ## Nodes -/

/-- **The nodes that can be made**: from any texts, from any lists of ids, and for the points that a program has. -/
inductive Made : Node → Prop where
  | tensor (root : String) : Made (.tensor root)
  | rank (root rank : String) : Made (.rank root rank)
  | fiber (name : String) : Made (.fiber name)
  | loop (rank : String) : Made (.loop rank)
  | part (root : String) (ranks : List String) : Made (ofPart root ranks)
  | fromFiber (root rank : String) : Made (.fromFiber root rank)
  | swizzle (root : String) (ranks : List String) : Made (ofSwizzle root ranks)
  | other {a : Anchor} : a ∈ Anchor.known → Made (.other a)

theorem Made.ne_blank {n : Node} (h : n.Made) : n ≠ .blank := by
  rintro rfl
  cases h

theorem ofList_given (ids : List String) : RankTuple.ofList ((if (RankTuple.ofList ids).ids.isEmpty then none
    else some (RankTuple.ofList ids).ids).getD []) = RankTuple.ofList ids := by
  have hgiven : ∀ l : List String, (if l.isEmpty then none else some l).getD [] = l := by
    intro l
    cases l <;> rfl
  rw [hgiven, RankTuple.ofList_ids_ofList]

/-- **The kind says which of the arguments count**, and those make the node again. -/
theorem Made.node_draft {n : Node} (h : n.Made) : Draft.node ⟨n.kind.name, n.root, n.rankId,
    if n.rankIds.isEmpty then none else some n.rankIds, n.fiberName, n.anchor.label⟩ = .ok n := by
  cases h with
  | tensor root => rfl
  | rank root rank => rfl
  | fiber name => rfl
  | loop rank => rfl
  | fromFiber root rank => rfl
  | part root ranks => exact congrArg (fun t => Except.ok (Node.part root t)) (ofList_given ranks)
  | swizzle root ranks => exact congrArg (fun t => Except.ok (Node.swizzle root t)) (ofList_given ranks)
  | @other a ha =>
    change (if (Anchor.mk a.label).isKnown then Except.ok (Node.other ⟨a.label⟩) else _) = _
    exact if_pos (decide_eq_true ha)

/-- **Every node that can be made comes back from its text**: whichever of its arguments are empty, whichever characters
they have, and whether or not its ids had to be cut. -/
theorem ofWire_wire {n : Node} (h : n.Made) : ∃ s, n.wire? = some s ∧ ofWire s = .ok n := by
  have hfits := fits_members n.kind.name n.root n.rankId n.rankIds n.fiberName n.anchor.label
  have hread := Json.ofText?_compact (hfits.mono (by decide))
  refine ⟨_, by rw [wire?, toJson?_of_ne_blank h.ne_blank]; rfl, ?_⟩
  rw [ofWire, hread]
  change ofJson _ = _
  rw [ofJson, objectOver_members]
  exact h.node_draft

/-- A tensor name of characters that are written by their code, and ids of which one is cut and one is empty. -/
theorem ofWire_wire_cut : (ofSwizzle "<\" \x01" ["", "K\x1fM"]).Made ∧
    ∃ s, (ofSwizzle "<\" \x01" ["", "K\x1fM"]).wire? = some s ∧
      ofWire s = .ok (ofSwizzle "<\" \x01" ["", "K", "M"]) := by
  have h : (ofSwizzle "<\" \x01" ["", "K\x1fM"]).Made := .swizzle _ _
  have hcut : ofSwizzle "<\" \x01" ["", "K\x1fM"] = ofSwizzle "<\" \x01" ["", "K", "M"] := by decide +kernel
  obtain ⟨s, hs, hr⟩ := ofWire_wire h
  exact ⟨h, s, hs, hcut ▸ hr⟩

end Node
end LoopNest
