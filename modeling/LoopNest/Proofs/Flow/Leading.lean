import LoopNest.Proofs.Flow.Sharing
/-!
# Proofs.Flow.Leading — the fiber that a follower waits for

The partitioning of a follower waits for the fiber of its leader at the outer part of the split, whatever the loop order
is.  The leader itself stands, right after it has made the split, at the part that is looped over first.  In small
letters the two parts still have different names (`Split.lower_outer_ne`), so the two fibers are the same exactly if the
outer part is looped over before all other parts (`Meets.fiber_eq_iff`), and only then is the fiber that the follower
waits for the one that the leader gets when it takes its root (`leader_fiber_iff`).
-/
namespace LoopNest

/-! ## Names in small letters -/

theorem Text.lowerChar_of_isDecimalDigit {c : Char} (h : isDecimalDigit c = true) : lowerChar c = c := by
  have hc : '0' ≤ c ∧ c ≤ '9' := of_decide_eq_true h
  have hle : c.toNat ≤ 57 := hc.2
  have hfirst : caseRuns.all (fun r => decide (57 < r.first)) = true := by cbv
  have hnone : caseRuns.find? (fun r => r.covers c.toNat) = none := by
    rw [List.find?_eq_none]
    intro r hr
    have := of_decide_eq_true (List.all_eq_true.1 hfirst r hr)
    unfold CaseRun.covers
    rw [decide_eq_false (by omega), Bool.false_and, Bool.false_and]
    exact Bool.false_ne_true
  unfold lowerChar
  rw [hnone]

theorem Text.map_lowerChar_decimalDigits (n : Nat) : (decimalDigits n).map lowerChar = decimalDigits n := by
  conv_rhs => rw [← List.map_id (decimalDigits n)]
  exact List.map_congr_left fun c hc => lowerChar_of_isDecimalDigit (isDecimalDigit_of_mem_decimalDigits n c hc)

theorem toList_lower_finalName (rank : String) (i : Nat) :
    (Text.lower (finalName rank i)).toList = rank.toList.map Text.lowerChar ++ Text.decimalDigits i := by
  rw [Text.lower, String.toList_ofList, toList_finalName, List.map_append, Text.map_lowerChar_decimalDigits]

theorem toList_lower_intermediateName (rank : String) (i : Nat) : (Text.lower (intermediateName rank i)).toList =
    rank.toList.map Text.lowerChar ++ (Text.decimalDigits i ++ ['i']) := by
  have hi : ['I'].map Text.lowerChar = ['i'] := by decide
  rw [Text.lower, String.toList_ofList, toList_intermediateName, List.map_append, List.map_append,
    Text.map_lowerChar_decimalDigits, hi, List.append_assoc]

/-- **The two parts of a split differ by name, also in small letters.** -/
theorem Split.lower_outer_ne {s : Split} (h : s.rule.steps[s.index]? = some s.step) :
    Text.lower s.outer ≠ Text.lower s.inner := by
  have hlt := index_lt h
  intro heq
  have hl := congrArg String.toList heq
  rw [outer, toList_lower_finalName] at hl
  unfold inner at hl
  split at hl
  · rw [toList_lower_finalName] at hl
    have := Text.decimalDigits_injective (List.append_cancel_left hl)
    omega
  · -- One of them ends in a letter, and the other in a digit.
    rw [toList_lower_intermediateName] at hl
    have hi : 'i' ∈ Text.decimalDigits (s.rule.steps.length - s.index) := by
      rw [List.append_cancel_left hl]
      exact List.mem_append_right _ List.mem_cons_self
    exact absurd (Text.isDecimalDigit_of_mem_decimalDigits _ _ hi) (by decide)

namespace Wiring

variable {p : Program} {t u : Tensor} {x f : String} {s : Split} {c d : Cursor} {n m : Node} {raw : Graph Node}

/-! ## The fiber of a leader after a split -/

theorem outer_lt_inner_iff (hp : p.Consistent) (hs : p.rules.split? x = some s) (hx : p.Covered x) :
    p.loops.idxOf s.outer < p.place s.inner ↔
      ∀ f ∈ s.finals, f ≠ s.outer → p.loops.idxOf s.outer < p.loops.idxOf f := by
  have hinner := Program.covered_inner hp hs hx
  rw [← Program.loopsFor_of_split hs, Program.loopsFor_eq_cons hp.coherent hs]
  constructor
  · intro hlt f hf hne
    exact hlt.trans_le (Program.place_le hp hinner ((List.mem_cons.1 hf).resolve_left hne))
  · intro h
    obtain ⟨f, hf, hplace⟩ := Program.exists_place hp hinner
    have hne : f ≠ s.outer := by
      rintro rfl
      exact Program.outer_ne_inner hp hs hx hplace.symm
    rw [hplace]
    exact h f (List.mem_cons_of_mem _ hf) hne

/-- **Right after a split a tensor is at its fiber for the outer part exactly if that part is looped over first.** -/
theorem Meets.fiber_eq_iff (hp : p.Named) (ht : t ∈ p.tensors) (hm : Meets p t x c d) (hs : p.rules.split? x = some s) :
    d.fiber = fiberName t.root s.outer ↔ ∀ f ∈ s.finals, f ≠ s.outer → p.loops.idxOf s.outer < p.loops.idxOf f := by
  obtain ⟨rest, hpend⟩ := hm.exists_pending
  have hx := (hm.1.onTrack hp ht).covered hp.toConsistent ht x (by rw [hpend]; exact List.mem_cons_self)
  have htrack := (Takes.stands (.inr ⟨x, c, hm⟩)).onTrack hp ht
  rw [← outer_lt_inner_iff hp.toConsistent hs hx, htrack.fiber_eq, Cursor.peek?, hm.head?_eq hp ht hs]
  by_cases hlt : p.loops.idxOf s.outer < p.place s.inner
  · rw [if_pos hlt]
    exact ⟨fun _ => hlt, fun _ => rfl⟩
  · rw [if_neg hlt, fiberAt_some, fiberName]
    refine ⟨fun heq => ?_, fun h => absurd h hlt⟩
    have hstep := (hp.coherent.split?_eq_some_iff.1 hs).2.1
    exact absurd ((String.append_right_inj _).1 heq).symm (Split.lower_outer_ne hstep)

/-! ## The edges around it -/

theorem Depends.of_swizzle (hd : Depends p t n m) (hn : n.kind = .swizzle) :
    ∃ c, Takes p t c ∧ n = .ofSwizzle t.root c.pending ∧ m = .fiber c.fiber := by
  cases hd with
  | root hc => exact ⟨_, hc, rfl, rfl⟩
  | rank _ hd =>
    cases hd with
    | split _ _ _ hd => cases hd <;> cases hn
    | _ => cases hn
  | _ => cases hn

theorem Depends.fiber_part (hd : Depends p t (.fiber f) m) (hm : m.kind = .part) :
    ∃ x s, p.rules.split? x = some s ∧ s.rule.rank ∈ t.ranks ∧ f = fiberName s.step.leader s.outer ∧
      m = .ofPart t.root [x] := by
  cases hd with
  | rank hx hd =>
    cases hd with
    | split hs _ hrank hd =>
      cases hd with
      | led _ => exact ⟨_, _, hs, hrank ▸ hx, rfl, rfl⟩
  | remade _ => cases hm
  | enter _ => cases hm
  | finish _ _ => cases hm

section
variable (hp : p.Named) (hraw : p.graph = .ok raw) (ht : t ∈ p.tensors)
include hp hraw ht

/-- **Where a tensor takes its root it gets the fiber at which it then stands**, and nothing else. -/
theorem Takes.edge_iff (hc : Takes p t c) : raw.Edge (.ofSwizzle t.root c.pending) n ↔ n = .fiber c.fiber := by
  constructor
  · intro he
    rcases (Wiring.edge_iff hp hraw).1 he with he | he | ⟨u, hu, hd⟩
    · obtain ⟨h | h, -⟩ := kind_of_mem_skeleton he <;> cases h
    · cases he
    · obtain ⟨b, hb, heq, rfl⟩ := hd.of_swizzle rfl
      obtain rfl : t = u := List.inj_on_of_nodup_map hp.nodup_roots ht hu (Node.swizzle.inj heq).1
      have hpend := hc.stands.swizzle_inj hp ht hb.stands heq
      rw [(hc.stands.onTrack hp ht).fiber_eq, (hb.stands.onTrack hp ht).fiber_eq, Cursor.peek?, Cursor.peek?, hpend]
  · rintro rfl
    exact edge_of_depends hp hraw ht (.root hc)

theorem fiber_edge_part_iff (hs : p.rules.split? x = some s) (hdyn : s.step.isDynamic = true)
    (hrank : s.rule.rank ∈ t.ranks) (hne : s.step.leader ≠ t.root) :
    raw.Edge (.fiber f) (.ofPart t.root [x]) ↔ f = fiberName s.step.leader s.outer := by
  constructor
  · intro he
    obtain ⟨u, hu, hd⟩ := exists_depends hp hraw he (.inl rfl)
    obtain ⟨y, s', hs', hrank', rfl, heq⟩ := hd.fiber_part rfl
    obtain rfl : t = u := List.inj_on_of_nodup_map hp.nodup_roots ht hu (Node.part.inj heq).1
    have hplain : ∀ {z s}, p.rules.split? z = some s → s.rule.rank ∈ t.ranks → Plain z := fun hs hrank =>
      (Program.Obtainable.of_rule hp.toConsistent hs hrank).plain hp ht
    rw [ofPart_inj (hplain hs hrank) (hplain hs' hrank') heq, hs'] at hs
    cases hs
    rfl
  · rintro rfl
    exact edge_of_depends hp hraw ht (.rank hrank (.split hs hdyn rfl (.led hne)))

end

/-- **The fiber that a follower waits for.**  In a validated program let a step split a rank of a tensor inside the
loops, and let another tensor lead it.  The partitioning of the follower waits for one fiber, that of the leader at the
outer part, at which the leader enters the loop over this part.  The leader makes the same split, and the root that it
takes right after gives it one fiber.  The two are the same exactly if the loop over the outer part is outside of the
loops over all other parts that come from the split. -/
theorem leader_fiber_iff (hp : p.Validated) (ht : t ∈ p.tensors) (hs : p.rules.split? x = some s)
    (hdyn : s.step.isDynamic = true) (hrank : s.rule.rank ∈ t.ranks) (hne : s.step.leader ≠ t.root) :
    ∃ raw, p.graph = .ok raw ∧
      (∀ f, raw.Edge (.fiber f) (.ofPart t.root [x]) ↔ f = fiberName s.step.leader s.outer) ∧
      ∃ l ∈ p.tensors, l.root = s.step.leader ∧
        (∃ c d, Enters p l s.outer c d ∧ c.fiber = fiberName s.step.leader s.outer) ∧ (∃ c d, Meets p l x c d) ∧
        ∀ c d, Meets p l x c d → (∀ n, raw.Edge (.ofSwizzle l.root d.pending) n ↔ n = .fiber d.fiber) ∧
          (raw.Edge (.ofSwizzle l.root d.pending) (.fiber (fiberName s.step.leader s.outer)) ↔
            ∀ f ∈ s.finals, f ≠ s.outer → p.loops.idxOf s.outer < p.loops.idxOf f) := by
  have hn := hp.named
  obtain ⟨raw, hraw, -⟩ := hp.consistent.graph_total
  obtain ⟨hr, hstep, -⟩ := hn.coherent.split?_eq_some_iff.1 hs
  obtain ⟨l, hl, hroot, hrank'⟩ := hn.leads s.rule hr s.step (List.mem_of_getElem? hstep) hdyn
  have henters : ∃ c d, Enters p l s.outer c d ∧ c.fiber = fiberName s.step.leader s.outer := by
    obtain ⟨l', hl', hroot', henters⟩ := exists_leader hn hs hdyn
    rwa [List.inj_on_of_nodup_map hn.nodup_roots hl hl' (hroot.trans hroot'.symm)]
  refine ⟨raw, hraw, fun f => fiber_edge_part_iff hn hraw ht hs hdyn hrank hne, l, hl, hroot, henters,
    exists_meets hn hl hs hdyn hrank', fun c d hm => ?_⟩
  have htakes : ∀ n, raw.Edge (.ofSwizzle l.root d.pending) n ↔ n = .fiber d.fiber := fun n =>
    Takes.edge_iff hn hraw hl (.inr ⟨x, c, hm⟩)
  refine ⟨htakes, ?_⟩
  rw [htakes, ← hm.fiber_eq_iff hn hl hs, hroot, Node.fiber.injEq, eq_comm]

/-- The second split of the program with two steps. -/
def twoStepsSplit : Split :=
  ⟨⟨"K", [⟨.uniformOccupancy, 6, "A"⟩, ⟨.uniformOccupancy, 3, "A"⟩]⟩, 1, ⟨.uniformOccupancy, 3, "A"⟩⟩

/-- In the program with two steps the outermost part is looped over first: right after the second step the leader is at
the fiber that the follower waits for. -/
theorem leader_fiber_twoSteps : twoSteps.Validated ∧ ⟨"B", some ["K"]⟩ ∈ twoSteps.tensors ∧
    ∃ raw c d, twoSteps.graph = .ok raw ∧ Meets twoSteps ⟨"A", some ["K", "M"]⟩ "K1I" c d ∧
      raw.Edge (.ofSwizzle "A" d.pending) (.fiber "a_k1") ∧ raw.Edge (.fiber "a_k1") (.ofPart "B" ["K1I"]) := by
  have ht : (⟨"B", some ["K"]⟩ : Tensor) ∈ twoSteps.tensors := List.mem_cons_of_mem _ List.mem_cons_self
  have hs : twoSteps.rules.split? "K1I" = some twoStepsSplit := by cbv
  have hname : fiberName twoStepsSplit.step.leader twoStepsSplit.outer = "a_k1" := by cbv
  have houter : twoStepsSplit.outer = "K1" := by cbv
  have hfinals : twoStepsSplit.finals = ["K1", "K0"] := by cbv
  obtain ⟨raw, hraw, hpart, l, hl, hroot, -, ⟨c, d, hm⟩, hall⟩ :=
    leader_fiber_iff validated_twoSteps ht hs rfl List.mem_cons_self (by decide)
  obtain rfl : l = ⟨"A", some ["K", "M"]⟩ := List.inj_on_of_nodup_map validated_twoSteps.named.nodup_roots hl
    List.mem_cons_self hroot
  have hfiber := (hall c d hm).2.2 (by rw [hfinals, houter]; decide)
  rw [hname] at hfiber
  exact ⟨validated_twoSteps, ht, raw, c, d, hraw, hm, hfiber, (hpart _).2 hname.symm⟩

/-- One tensor leads another, and the inner part of the rank that they share is looped over first. -/
def innerFirst : { p : Program // p.Validated } :=
  ⟨⟨[⟨"A", some ["K"]⟩, ⟨"B", some ["K"]⟩], "B", ["K0", "K1"], ⟨[⟨"K", [⟨.uniformOccupancy, 2, "A"⟩]⟩]⟩⟩,
    .of_problem? (by decide +kernel) (by decide +kernel)⟩

/-- Its only split. -/
def innerFirstSplit : Split := ⟨⟨"K", [⟨.uniformOccupancy, 2, "A"⟩]⟩, 0, ⟨.uniformOccupancy, 2, "A"⟩⟩

theorem split?_innerFirst : innerFirst.val.rules.split? "K" = some innerFirstSplit := by cbv

theorem meets_innerFirst : Meets innerFirst.val ⟨"A", some ["K"]⟩ "K" ⟨"A", ["K"], [], ["K"], false, false⟩
    ⟨"A", ["K"], [], ["K0", "K1"], false, true⟩ := by
  obtain ⟨ranks, hranks⟩ := exists_of_map_snd (c := ⟨"A", ["K"], [], ["K"], false, false⟩)
    (m := rankPart innerFirst.val "A" (innerFirst.val.cursor ⟨"A", some ["K"]⟩) ["K"]) (by decide +kernel)
  have hopens : Opens innerFirst.val ⟨"A", some ["K"]⟩ ⟨"A", ["K"], [], ["K"], false, false⟩ :=
    ⟨ranks, _, hranks, by cbv⟩
  have hmeet := exists_of_map_snd (c := ⟨"A", ["K"], [], ["K0", "K1"], false, true⟩)
    (m := meetSplit innerFirst.val ⟨"A", ["K"], [], ["K"], false, false⟩ "K") (by cbv)
  exact ⟨hopens.stands, rfl, by rw [RuleSet.isDynamic, split?_innerFirst]; rfl, hmeet⟩

/-- **A follower can wait for a fiber that its leader does not get from the split**: the leader is then at the inner
part, and comes to the outer one only inside the loop over the inner one. -/
theorem leader_fiber_innerFirst : ∃ raw c d, innerFirst.val.graph = .ok raw ∧
    Meets innerFirst.val ⟨"A", some ["K"]⟩ "K" c d ∧ raw.Edge (.fiber "a_k1") (.ofPart "B" ["K"]) ∧
    (∀ f, raw.Edge (.fiber f) (.ofPart "B" ["K"]) → f = "a_k1") ∧
    (∀ n, raw.Edge (.ofSwizzle "A" d.pending) n → n = .fiber "a_k0") ∧
    raw.Edge (.loop "K0") (.fiber "a_k1") := by
  have hn := innerFirst.property.named
  obtain ⟨raw, hraw, -⟩ := innerFirst.property.consistent.graph_total
  have ha : (⟨"A", some ["K"]⟩ : Tensor) ∈ innerFirst.val.tensors := List.mem_cons_self
  have hb : (⟨"B", some ["K"]⟩ : Tensor) ∈ innerFirst.val.tensors := List.mem_cons_of_mem _ List.mem_cons_self
  have hname : fiberName innerFirstSplit.step.leader innerFirstSplit.outer = "a_k1" := by cbv
  have hpart : ∀ f, raw.Edge (.fiber f) (.ofPart "B" ["K"]) ↔ f = "a_k1" := by
    intro f
    rw [← hname]
    exact fiber_edge_part_iff hn hraw hb split?_innerFirst rfl List.mem_cons_self (by decide)
  have htakes : Takes innerFirst.val ⟨"A", some ["K"]⟩ _ := .inr ⟨_, _, meets_innerFirst⟩
  have henters : Enters innerFirst.val ⟨"A", some ["K"]⟩ "K0" _ ⟨"A", ["K"], ["K0"], ["K1"], false, true⟩ :=
    ⟨htakes.stands, rfl, by cbv⟩
  exact ⟨raw, _, _, hraw, meets_innerFirst, (hpart _).2 rfl, fun f => (hpart f).1,
    fun n => (htakes.edge_iff hn hraw ha).1, edge_of_depends hn hraw ha (.next henters)⟩

end Wiring
end LoopNest
