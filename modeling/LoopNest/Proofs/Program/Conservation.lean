import Mathlib
import LoopNest.Proofs.Flow.Walking
import LoopNest.Proofs.Program.Indexing
/-!
# Proofs.Program.Conservation — no operation on a cursor loses or doubles a rank

A cursor is popped, reset, made anew from a fiber, split and sorted in any order, and ranks may be consumed before they
are split.  What stays is the list of ranks that its ranks become in the end (`Conserves`): a pop moves a rank from the
pending to the consumed ones, a split keeps what a rank becomes, and the loop order permutes the pending ranks.  These
ranks are all different and have loops, so the ranks of the cursor differ and can be sorted after every run
(`cursor_conserved`).
-/
namespace LoopNest

namespace Cursor

/-- A split fails exactly on a rank that is not pending or has no split, and gives the cursor back. -/
theorem split_eq_error_iff {rules : RuleSet} {c : Cursor} {x : String} :
    (∃ e, c.split rules x = .error (e, c)) ↔ ¬ (x ∈ c.pending ∧ rules.isPartitioned x = true) := by
  by_cases hx : x ∈ c.pending
  · cases hs : rules.split? x with
    | none => simp [Cursor.split, hx, hs, RuleSet.isPartitioned]
    | some s => simp [Cursor.split, hx, hs, RuleSet.isPartitioned]
  · simp [Cursor.split, hx]

theorem snd_of_split {rules : RuleSet} {c : Cursor} {x : String} {e : Problem × Cursor}
    (h : c.split rules x = .error e) : e.2 = c := by
  unfold split at h
  split at h
  · split at h <;> cases h
    rfl
  · cases h
    rfl

end Cursor

namespace Program

variable {p : Program} {t : Tensor} {c : Cursor}

theorem loopsFor_ne_nil (hp : p.rules.Coherent) (x : String) : p.loopsFor x ≠ [] := by
  cases hs : p.rules.split? x with
  | none => simp [loopsFor_of_unsplit hs]
  | some s =>
    rw [loopsFor_of_split hs]
    exact List.ne_nil_of_mem (hp.outer_mem_finals hs)

/-- Ranks that become different ranks in the end are different. -/
theorem nodup_of_nodup_flatMap (hp : p.rules.Coherent) : ∀ {l : List String}, (l.flatMap p.loopsFor).Nodup → l.Nodup
  | [], _ => List.nodup_nil
  | x :: l, h => by
    rw [List.flatMap_cons, List.nodup_append] at h
    obtain ⟨-, hl, hdisjoint⟩ := h
    refine List.nodup_cons.2 ⟨fun hx => ?_, nodup_of_nodup_flatMap hp hl⟩
    obtain ⟨f, hf⟩ := List.exists_mem_of_ne_nil _ (loopsFor_ne_nil hp x)
    exact hdisjoint f hf f (List.mem_flatMap.2 ⟨x, hx, hf⟩) rfl

/-- **A cursor that has lost nothing of a tensor**: it still knows the tensor, and its ranks, consumed and pending,
become in the end what the declared ranks become. -/
structure Conserves (p : Program) (t : Tensor) (c : Cursor) : Prop where
  root : c.root = t.root
  declared : c.declared = t.ranks
  perm : (c.ranks.flatMap p.loopsFor).Perm (t.ranks.flatMap p.loopsFor)

theorem conserves_cursor (p : Program) (t : Tensor) : Conserves p t (p.cursor t) := ⟨rfl, rfl, List.Perm.refl _⟩

/-- Other pending ranks that become the same in the end. -/
theorem Conserves.withPending (hc : Conserves p t c) {pending : List String}
    (h : (pending.flatMap p.loopsFor).Perm (c.pending.flatMap p.loopsFor)) : Conserves p t (c.withPending pending) := by
  refine ⟨hc.root, hc.declared, List.Perm.trans ?_ hc.perm⟩
  change ((c.consumed ++ pending).flatMap p.loopsFor).Perm ((c.consumed ++ c.pending).flatMap p.loopsFor)
  rw [List.flatMap_append, List.flatMap_append]
  exact h.append_left _

theorem Conserves.covered (hp : p.Consistent) (ht : t ∈ p.tensors) (hc : Conserves p t c) :
    ∀ x ∈ c.ranks, p.Covered x := by
  intro x hx f hf
  obtain ⟨y, hy, hfy⟩ := List.mem_flatMap.1 (hc.perm.mem_iff.1 (List.mem_flatMap.2 ⟨x, hx, hf⟩))
  exact hp.covered t ht y hy f hfy

theorem Conserves.apply (hp : p.Consistent) (ht : t ∈ p.tensors) (hc : Conserves p t c) :
    ∃ d, p.loopOrder.apply c = .ok d ∧ Conserves p t d := by
  obtain ⟨ranks, hperm, -, happly⟩ := apply_sorted hp fun x hx =>
    hc.covered hp ht x (List.mem_append_right _ hx)
  exact ⟨_, happly, hc.withPending (hperm.flatMap_right _)⟩

theorem Conserves.split (hp : p.Consistent) (hc : Conserves p t c) {d : Cursor} {x : String}
    (h : c.split p.rules x = .ok d) : Conserves p t d := by
  have hok : ¬ ∃ e, c.split p.rules x = .error (e, c) := by
    rintro ⟨e, he⟩
    rw [h] at he
    cases he
  rw [Cursor.split_eq_error_iff, not_not] at hok
  obtain ⟨s, hs⟩ := Option.isSome_iff_exists.1 hok.2
  obtain ⟨before, after, hpend, hsplit⟩ := Cursor.split_of_mem hok.1 hs
  rw [h, Except.ok.injEq] at hsplit
  subst hsplit
  refine hc.withPending (List.Perm.of_eq ?_)
  rw [hpend, List.flatMap_append, List.flatMap_append, ← loopsFor_split hp.coherent hs, List.flatMap_append,
    List.flatMap_cons, List.append_assoc]

theorem Conserves.pop (hc : Conserves p t c) {d : Cursor} {x : String} (h : c.pop? = some (x, d)) :
    Conserves p t d := by
  obtain ⟨rest, hpend, rfl⟩ := Cursor.pop?_eq_some.1 h
  refine ⟨hc.root, hc.declared, List.Perm.trans (List.Perm.of_eq ?_) hc.perm⟩
  change (c.consumed ++ [x] ++ rest).flatMap p.loopsFor = (c.consumed ++ c.pending).flatMap p.loopsFor
  rw [hpend, List.append_assoc, List.singleton_append]

/-- **No operation loses anything.** -/
theorem Conserves.perform (hp : p.Consistent) (ht : t ∈ p.tensors) (hc : Conserves p t c) (o : Cursor.Operation) :
    Conserves p t (o.perform p c).1 := by
  cases o with
  | pop =>
    cases h : c.pop? with
    | none => simpa [Cursor.Operation.perform, h] using hc
    | some r => simpa [Cursor.Operation.perform, h] using hc.pop (x := r.1) h
  | reset =>
    refine ⟨hc.root, hc.declared, ?_⟩
    change (([] ++ c.declared).flatMap p.loopsFor).Perm _
    rw [hc.declared, List.nil_append]
  | reroot => exact ⟨hc.root, hc.declared, hc.perm⟩
  | mark output => exact ⟨hc.root, hc.declared, hc.perm⟩
  | split x =>
    rw [Cursor.Operation.perform]
    cases h : c.split p.rules x with
    | error e =>
      have hback : e.2 = c := Cursor.snd_of_split h
      rw [Cursor.attempt, hback]
      exact hc
    | ok d => exact hc.split hp h
  | splitAll =>
    rw [Cursor.Operation.perform, splitAll_eq hp.coherent]
    refine hc.withPending (List.Perm.of_eq ?_)
    rw [List.flatMap_assoc]
    exact List.flatMap_congr fun x hx => flatMap_loopsFor_of_unsplit fun f hf =>
      hp.loops_unsplit f (hc.covered hp ht x (List.mem_append_right _ hx) f hf)
  | sort =>
    obtain ⟨d, happly, hd⟩ := hc.apply hp ht
    rw [Cursor.Operation.perform, happly]
    exact hd

theorem Conserves.run (hp : p.Consistent) (ht : t ∈ p.tensors) : ∀ (ops : List Cursor.Operation) {c : Cursor},
    Conserves p t c → Conserves p t (c.perform p ops)
  | [], _, hc => hc
  | o :: ops, _, hc => Conserves.run hp ht ops (hc.perform hp ht o)

/-- **Whatever is done with a cursor, no rank is lost or doubled.**  After every run of operations on the cursor of a
declared tensor the same run by position has come to the same ranks, its position is inside them, and they are all
different; what they become in the end is, up to order, what the declared ranks become.  The loop order can be applied.
A rank that is pending and has a split can be split, and an attempt at any other fails and gives the cursor back as it
was.  A reset leads back to the start, but for the mark of the output. -/
theorem cursor_conserved (hp : p.Validated) (ht : t ∈ p.tensors) (ops : List Cursor.Operation) :
    let c := (p.cursor t).perform p ops
    let q := (p.indexedCursor t).perform p ops
    q = c.indexed ∧ q.pos ≤ q.ranks.length ∧ c.ranks.Nodup ∧
    (c.ranks.flatMap p.loopsFor).Perm (t.ranks.flatMap p.loopsFor) ∧
    (∃ d, p.loopOrder.apply c = .ok d) ∧
    (∀ x, x ∈ c.pending → p.rules.isPartitioned x = true → ∃ d, c.split p.rules x = .ok d) ∧
    (∀ x, ¬ (x ∈ c.pending ∧ p.rules.isPartitioned x = true) →
      ∃ e, c.split p.rules x = .error (e, c) ∧ (Cursor.Operation.split x).perform p c = (c, some e)) ∧
    c.reset = { p.cursor t with output := c.output } := by
  intro c q
  have hcons := hp.consistent
  have hc : Conserves p t c := Conserves.run hcons ht ops (conserves_cursor p t)
  obtain ⟨d, hsort, -⟩ := hc.apply hcons ht
  obtain ⟨hrun, hpos⟩ := p.perform_indexedCursor t ops
  refine ⟨hrun, hpos, ?_, hc.perm, ⟨d, hsort⟩, fun x hx hpart => ?_, fun x hx => ?_, ?_⟩
  · exact nodup_of_nodup_flatMap hcons.coherent (hc.perm.nodup_iff.2 (hp.named.nodup_loopsFor ht))
  · obtain ⟨s, hs⟩ := Option.isSome_iff_exists.1 hpart
    obtain ⟨before, after, -, hsplit⟩ := Cursor.split_of_mem hx hs
    exact ⟨_, hsplit⟩
  · obtain ⟨e, he⟩ := Cursor.split_eq_error_iff.2 hx
    exact ⟨e, he, by rw [Cursor.Operation.perform, he, Cursor.attempt]⟩
  · rw [Cursor.reset, hc.declared, hc.root]
    rfl

/-- The first rank of the tensor is consumed before it is split, the split is tried all the same, and the other rank is
consumed after sorting: the ranks are those declared, and still become the four ranks of the loops. -/
theorem cursor_conserved_twoSteps :
    Wiring.twoSteps.Validated ∧ ⟨"A", some ["K", "M"]⟩ ∈ Wiring.twoSteps.tensors ∧
    let c := (Wiring.twoSteps.cursor ⟨"A", some ["K", "M"]⟩).perform Wiring.twoSteps [.pop, .split "K", .sort, .pop]
    c.ranks = ["K", "M"] ∧ (["K", "M"].flatMap Wiring.twoSteps.loopsFor).Perm ["K2", "K1", "K0", "M"] ∧ c.ranks.Nodup := by
  have ht : ⟨"A", some ["K", "M"]⟩ ∈ Wiring.twoSteps.tensors := List.mem_cons_self
  obtain ⟨-, -, hnd, -⟩ := cursor_conserved Wiring.validated_twoSteps ht [.pop, .split "K", .sort, .pop]
  have hranks : ((Wiring.twoSteps.cursor ⟨"A", some ["K", "M"]⟩).perform Wiring.twoSteps
      [.pop, .split "K", .sort, .pop]).ranks = ["K", "M"] := by cbv
  have hfor : ["K", "M"].flatMap Wiring.twoSteps.loopsFor = ["K2", "K1", "K0", "M"] := by decide +kernel
  exact ⟨Wiring.validated_twoSteps, ht, hranks, List.Perm.of_eq hfor, hnd⟩

end Program
end LoopNest
