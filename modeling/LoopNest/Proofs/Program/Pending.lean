import Mathlib
import LoopNest.Proofs.Rules.Acceptance
import LoopNest.Proofs.Program.Conservation
/-!
# Proofs.Program.Pending — splitting and sorting pending ranks, whatever the cursor holds

Nothing is known here of tensors and loops.  A cursor may have a rank twice, a rank that no tensor declares, or a rank
together with ranks that it was split into, and the loop order may list a loop twice.  Splitting to the end still puts
in the place of each rank its final ranks (`splitAll_complete`), and the loop order still is a stable sorting by key that
fails exactly on a rank without one (`apply_sorts_stably`).
-/
namespace LoopNest

/-! ## Keys -/

section

variable {α : Type} [DecidableEq α] {a b : α} {l : List α} {i : Nat}

theorem lastIndex?_cons_zero : lastIndex? (b :: l) a = some 0 ↔ b = a ∧ a ∉ l := by
  rw [← lastIndex?_eq_none_iff, lastIndex?]
  cases lastIndex? l a <;> simp

theorem lastIndex?_cons_succ : lastIndex? (b :: l) a = some (i + 1) ↔ lastIndex? l a = some i := by
  rw [lastIndex?]
  cases lastIndex? l a <;> simp

end

theorem lastIndex?_eq_some_iff {α : Type} [DecidableEq α] {a : α} : ∀ {l : List α} {i : Nat},
    lastIndex? l a = some i ↔ l[i]? = some a ∧ ∀ j, i < j → l[j]? ≠ some a
  | [], i => by simp [lastIndex?]
  | b :: l, 0 => by
    rw [lastIndex?_cons_zero, List.getElem?_cons_zero, Option.some.injEq]
    refine and_congr_right fun _ => ⟨fun h j hj hja => ?_, fun h ha => ?_⟩
    · obtain ⟨j, rfl⟩ := Nat.exists_eq_add_one_of_ne_zero (Nat.ne_zero_of_lt hj)
      exact h (List.mem_of_getElem? hja)
    · obtain ⟨j, hj⟩ := List.mem_iff_getElem?.1 ha
      exact h (j + 1) (by omega) hj
  | b :: l, i + 1 => by
    rw [lastIndex?_cons_succ, lastIndex?_eq_some_iff, List.getElem?_cons_succ]
    refine and_congr_right fun _ => ⟨fun h j hj => ?_, fun h j hj => h (j + 1) (by omega)⟩
    obtain ⟨j, rfl⟩ := Nat.exists_eq_add_one_of_ne_zero (Nat.ne_zero_of_lt hj)
    exact h j (by omega)

namespace LoopOrder

variable {l : LoopOrder} {x : String} {k : Nat}

/-- The innermost of the loops over a rank. -/
def LoopAt (l : LoopOrder) (x : String) (i : Nat) : Prop :=
  l.ranks[i]? = some x ∧ ∀ j, i < j → l.ranks[j]? ≠ some x

/-- **Where a rank belongs**: at its own loop or, if there is none, at the outermost loop of its final ranks. -/
def Belongs (l : LoopOrder) (x : String) (k : Nat) : Prop :=
  l.LoopAt x k ∨ x ∉ l.ranks ∧ (∃ f ∈ l.rules.finals x, l.LoopAt f k) ∧
    ∀ f ∈ l.rules.finals x, ∀ i, l.LoopAt f i → k ≤ i

theorem position?_eq_some_iff : l.position? x = some k ↔ l.LoopAt x k := lastIndex?_eq_some_iff

theorem key?_eq_some_iff : l.key? x = some k ↔ l.Belongs x k := by
  unfold key? Belongs
  cases h : l.position? x with
  | some i =>
    have hx : x ∈ l.ranks := List.mem_of_getElem? (position?_eq_some_iff.1 h).1
    rw [← position?_eq_some_iff, h]
    simp [hx]
  | none =>
    have hx : x ∉ l.ranks := position?_eq_none_iff.1 h
    have hown : ¬ l.LoopAt x k := by rw [← position?_eq_some_iff, h]; simp
    simp only [List.min?_eq_some_iff, List.mem_filterMap, position?_eq_some_iff, hown, hx, not_false_eq_true, true_and,
      false_or]
    exact and_congr_right fun _ => ⟨fun h f hf i hi => h i ⟨f, hf, hi⟩, fun h i ⟨f, hf, hi⟩ => h f hf i hi⟩

/-- **The loop order fails on a rank that belongs nowhere**, and leaves the cursor as it was. -/
theorem apply_eq_error {c d : Cursor} {e : Problem} (h : l.apply c = .error (e, d)) :
    e.code = .rankNotFound ∧ d = c := by
  unfold apply at h
  split at h
  · cases h
    exact ⟨rfl, rfl⟩
  · cases h

end LoopOrder

namespace Program

variable {p : Program}

/-! ## Sorting -/

theorem apply_eq_ok_iff {c d : Cursor} : p.loopOrder.apply c = .ok d ↔
    (∀ x ∈ c.pending, (p.loopOrder.key? x).isSome = true) ∧ d = c.withPending (p.byPlace c.pending) := by
  constructor
  · intro h
    have hkeys : ∀ x ∈ c.pending, (p.loopOrder.key? x).isSome = true := by
      unfold LoopOrder.apply at h
      split at h
      · cases h
      · rename_i hfind
        intro x hx
        simpa [Option.ne_none_iff_isSome] using List.find?_eq_none.1 hfind x hx
    rw [apply_of_keys hkeys, Except.ok.injEq] at h
    exact ⟨hkeys, h.symm⟩
  · rintro ⟨hkeys, rfl⟩
    exact apply_of_keys hkeys

theorem apply_fails_iff {c : Cursor} : (∃ e, p.loopOrder.apply c = .error e) ↔
    ∃ x ∈ c.pending, x ∉ p.loops ∧ ∀ f ∈ p.rules.finals x, f ∉ p.loops := by
  have hkeys : (∃ e, p.loopOrder.apply c = .error e) ↔ ¬ ∀ x ∈ c.pending, (p.loopOrder.key? x).isSome = true := by
    constructor
    · rintro ⟨e, he⟩ h
      rw [apply_of_keys h] at he
      cases he
    · intro h
      cases hc : p.loopOrder.apply c with
      | error e => exact ⟨e, rfl⟩
      | ok d => exact absurd (apply_eq_ok_iff.1 hc).1 h
  simp only [hkeys, not_forall, Bool.not_eq_true, Option.isSome_eq_false_iff, Option.isNone_iff_eq_none,
    LoopOrder.key?_eq_none_iff, exists_prop]
  rfl

theorem apply_apply {c d : Cursor} (h : p.loopOrder.apply c = .ok d) : p.loopOrder.apply d = .ok d := by
  obtain ⟨hkeys, rfl⟩ := apply_eq_ok_iff.1 h
  refine apply_eq_ok_iff.2 ⟨fun x hx => hkeys x ((perm_byPlace p _).mem_iff.1 hx), ?_⟩
  change c.withPending (p.byPlace c.pending) = c.withPending (p.byPlace (p.byPlace c.pending))
  rw [byPlace_of_pairwise (pairwise_byPlace p c.pending)]

/-- **The loop order is a stable sorting of the pending ranks by key.**  It fails exactly if a pending rank neither has a
loop nor a final rank with one, and gives the cursor back as it was then.  Otherwise it changes nothing but the order of the
pending ranks: they are sorted by where they belong, and ranks that belong at the same loop keep their order.  A second
time it changes nothing. -/
theorem apply_sorts_stably (p : Program) (c : Cursor) :
    ((∃ e, p.loopOrder.apply c = .error e) ↔
      ∃ x ∈ c.pending, x ∉ p.loops ∧ ∀ f ∈ p.rules.finals x, f ∉ p.loops) ∧
    (∀ e d, p.loopOrder.apply c = .error (e, d) →
      e.code = .rankNotFound ∧ d = c ∧ Cursor.Operation.sort.perform p c = (c, some e)) ∧
    ∀ d, p.loopOrder.apply c = .ok d → d = { c with pending := d.pending } ∧ d.pending.Perm c.pending ∧
      (∃ key : String → Nat, (∀ x ∈ c.pending, p.loopOrder.Belongs x (key x)) ∧
        d.pending.Pairwise (fun x y => key x ≤ key y) ∧
        ∀ k, d.pending.filter (fun x => key x = k) = c.pending.filter (fun x => key x = k)) ∧
      p.loopOrder.apply d = .ok d := by
  refine ⟨apply_fails_iff, fun e d he => ?_, fun d hd => ?_⟩
  · obtain ⟨hcode, rfl⟩ := LoopOrder.apply_eq_error he
    exact ⟨hcode, rfl, by rw [Cursor.Operation.perform, he, Cursor.attempt]⟩
  · have hagain := apply_apply hd
    obtain ⟨hkeys, rfl⟩ := apply_eq_ok_iff.1 hd
    refine ⟨rfl, perm_byPlace p _, ⟨p.place, fun x hx => ?_, pairwise_byPlace p _, filter_byPlace p _⟩, hagain⟩
    obtain ⟨k, hk⟩ := Option.isSome_iff_exists.1 (hkeys x hx)
    rw [place, hk]
    exact LoopOrder.key?_eq_some_iff.1 hk

-- The rank `K` and its part `K1` belong at the same loop and stay as they are; of the two loops over `M` the inner counts.
example : LoopOrder.apply ⟨["M", "K1", "K0", "M"], ⟨[⟨"K", [RuleSet.halving]⟩]⟩⟩
    ⟨"A", ["K", "M"], ["N"], ["M", "K0", "K1", "K", "K1"], true, false⟩ =
    .ok ⟨"A", ["K", "M"], ["N"], ["K1", "K", "K1", "K0", "M"], true, false⟩ := by cbv

/-! ## Splitting to the end -/

theorem loopsFor_eq_finalsOf (p : Program) (x : String) : p.loopsFor x = (p.rules.finalsOf x).toOption.getD [x] := by
  rw [RuleSet.finalsOf]
  cases hs : p.rules.split? x with
  | none => exact loopsFor_of_unsplit hs
  | some s => exact loopsFor_of_split hs

theorem split?_of_mem_loopsFor (hp : p.rules.Coherent) {x f : String} (hf : f ∈ p.loopsFor x) :
    p.rules.split? f = none := by
  cases hs : p.rules.split? x with
  | none =>
    rw [loopsFor_of_unsplit hs, List.mem_singleton] at hf
    rwa [hf]
  | some s =>
    rw [loopsFor_of_split hs] at hf
    exact hp.split?_of_mem_finals hs hf

/-- **Splitting to the end replaces every rank by its final ranks.**  For rules that were added one by one it does not
fail, and changes nothing but the pending ranks: a rank that is split, be it one with a rule or one between two splits,
gives way to its final ranks, and any other stays.  No rank is left that can be split.  The count of the splits to be
made bounds the rounds: with any larger number of rounds the result is the same. -/
theorem splitAll_complete (hp : p.rules.Offered) (c : Cursor) : ∃ d, c.splitAll p.rules = .ok d ∧
    d = { c with pending := c.pending.flatMap fun x => (p.rules.finalsOf x).toOption.getD [x] } ∧
    (∀ x ∈ d.pending, p.rules.isPartitioned x = false) ∧
    ∀ rounds, (c.pending.map (Cursor.pendingSplits p.rules)).sum ≤ rounds →
      Cursor.splitTimes p.rules rounds c = .ok d := by
  have hc := hp.coherent
  refine ⟨_, splitAll_eq hc c, ?_, fun x hx => ?_, fun rounds h => splitTimes_eq hc rounds h⟩
  · rw [funext (loopsFor_eq_finalsOf p)]
    rfl
  · obtain ⟨y, -, hx⟩ := List.mem_flatMap.1 hx
    rw [RuleSet.isPartitioned, split?_of_mem_loopsFor hc hx]
    rfl

/-- A cursor with a rank between two splits twice, a rank with a rule and one without, under rules that belong to no
tensors. -/
theorem splitAll_complete_overlaid : RuleSet.overlaid.Offered ∧
    ∃ d, (⟨"A", ["K"], ["K3"], ["K2I", "M", "K11", "K2I"], false, true⟩ : Cursor).splitAll RuleSet.overlaid = .ok d ∧
      d = ⟨"A", ["K"], ["K3"], ["K2", "K1", "K0", "M", "K111", "K110", "K2", "K1", "K0"], false, true⟩ := by
  have hp : RuleSet.overlaid.Offered := ⟨_, rfl⟩
  obtain ⟨d, hd, heq, -⟩ := splitAll_complete (p := ⟨[], "", [], RuleSet.overlaid⟩) hp
    ⟨"A", ["K"], ["K3"], ["K2I", "M", "K11", "K2I"], false, true⟩
  exact ⟨hp, d, hd, heq.trans (by decide +kernel)⟩

end Program
end LoopNest
