import Mathlib.Data.List.Basic
import LoopNest.Node.Basic
/-!
# Proofs.Node.Tuple — cutting ids at their separators

A tuple is made by cutting its ids at their separators.  No piece has a separator left (`not_mem_of_mem_piecesOf`), so
pieces are not cut again (`RankTuple.pieces_of_not_mem`): a tuple of `Plain` words keeps them whole, and a tuple that is
made again from its ids is the same tuple (`RankTuple.ofList_ids_ofList`).
-/
namespace LoopNest

/-- A word that a tuple of ids keeps whole. -/
def Plain (x : String) : Prop := x ≠ "" ∧ tupleSeparator ∉ x.toList

instance (x : String) : Decidable (Plain x) := inferInstanceAs (Decidable (_ ∧ _))

theorem piecesOf_of_not_mem : ∀ {cs : List Char}, tupleSeparator ∉ cs → piecesOf cs = [cs]
  | [], _ => rfl
  | c :: cs, h => by
    rw [List.mem_cons, not_or] at h
    rw [piecesOf, if_neg (Ne.symm h.1), piecesOf_of_not_mem h.2]

theorem not_mem_of_mem_piecesOf : ∀ {cs p : List Char}, p ∈ piecesOf cs → tupleSeparator ∉ p
  | [], p, hp => by
    rw [List.mem_singleton.1 hp]
    exact List.not_mem_nil
  | c :: cs, p, hp => by
    have ih : ∀ {q}, q ∈ piecesOf cs → tupleSeparator ∉ q := not_mem_of_mem_piecesOf
    unfold piecesOf at hp
    split at hp
    · rcases List.mem_cons.1 hp with rfl | hp
      · exact List.not_mem_nil
      · exact ih hp
    · rename_i hc
      split at hp
      · rw [List.mem_singleton.1 hp, List.mem_singleton]
        exact Ne.symm hc
      · -- the first piece of the rest grows by `c`, the others stay
        rename_i q qs heq
        rw [heq] at ih
        rcases List.mem_cons.1 hp with rfl | hp
        · rw [List.mem_cons, not_or]
          exact ⟨Ne.symm hc, ih List.mem_cons_self⟩
        · exact ih (List.mem_cons_of_mem _ hp)

namespace RankTuple

theorem pieces_of_not_mem {ids : List String} (h : ∀ x ∈ ids, tupleSeparator ∉ x.toList) : pieces ids = ids := by
  have hone : ∀ x ∈ ids, (piecesOf x.toList).map String.ofList = [x] := fun x hx => by
    rw [piecesOf_of_not_mem (h x hx), List.map_cons, List.map_nil, String.ofList_toList]
  rw [pieces, List.flatMap_congr hone, List.flatMap_singleton']

theorem not_mem_of_mem_pieces {ids : List String} {x : String} (h : x ∈ pieces ids) : tupleSeparator ∉ x.toList := by
  obtain ⟨y, -, hy⟩ := List.mem_flatMap.1 h
  obtain ⟨p, hp, rfl⟩ := List.mem_map.1 hy
  rw [String.toList_ofList]
  exact not_mem_of_mem_piecesOf hp

theorem ofList_of_plain {ids : List String} (h : ∀ x ∈ ids, Plain x) : ofList ids = ⟨ids⟩ := by
  rw [ofList, pieces_of_not_mem fun x hx => (h x hx).2, if_neg]
  rintro rfl
  exact (h "" List.mem_cons_self).1 rfl

/-- **A tuple made again from its ids is the same tuple.** -/
theorem ofList_ids_ofList (ids : List String) : ofList (ofList ids).ids = ofList ids := by
  have hcut : pieces (pieces ids) = pieces ids := pieces_of_not_mem fun _ => not_mem_of_mem_pieces
  by_cases h : pieces ids = [""]
  · unfold ofList
    rw [if_pos h]
    rfl
  · have hids : (ofList ids).ids = pieces ids := by unfold ofList; rw [if_neg h]
    rw [hids]
    unfold ofList
    rw [hcut]

end RankTuple
end LoopNest
