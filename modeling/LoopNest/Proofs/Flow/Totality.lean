import LoopNest.Proofs.Flow.Sharing
/-!
# Proofs.Flow.Totality — nothing fails while a validated program is built

The checks on a program look at its declared ranks and at the ranks that these become in the end.  On the way there are
others: the ranks between two splits, which no check looks up in the loop order.  What makes up for that is that a
pending rank is always covered, whatever was split before it (`Obtainable.covered`): so it can be split if it has a
split, and what comes out can be sorted (`Stands.split_apply`).  The walk itself is a loop without a bound of its own.
It makes as many steps as `stepsLeft` says at most, and with that many or more it always comes to the same end
(`Stands.walk_eq`).
-/
namespace LoopNest
namespace Wiring

variable {p : Program} {t : Tensor} {x : String} {s : Split} {c d f : Cursor} {es fs : List Dependency}

theorem Trip.eq_of_end (h : Trip p c es d) (hd : d.pending = []) (h' : Trip p c fs f) (hf : f.pending = []) :
    es = fs ∧ d = f := by
  obtain ⟨gs, hrest, rfl⟩ := h.rest h' hf
  cases hrest with
  | stay => exact ⟨(List.append_nil es).symm, rfl⟩
  | go hm _ => exact absurd hd hm.pending_ne_nil

/-- **With enough steps a walk comes to one end**, however many there are. -/
theorem Stands.walk_eq (hp : p.Named) (ht : t ∈ p.tensors) (hc : Stands p t c) : ∃ es d, d.pending = [] ∧
    ∀ fuel, stepsLeft p c ≤ fuel → walk p fuel c = .ok (es, d) := by
  have htrack := hc.onTrack hp ht
  obtain ⟨es, d, hwalk, hnil⟩ := htrack.walk_ends hp ht _ (Nat.le_refl (stepsLeft p c))
  refine ⟨es, d, hnil, fun fuel hfuel => ?_⟩
  obtain ⟨fs, f, hwalk', hnil'⟩ := htrack.walk_ends hp ht fuel hfuel
  obtain ⟨rfl, rfl⟩ := (trip_of_walk hwalk).eq_of_end hnil (trip_of_walk hwalk') hnil'
  exact hwalk'

/-- **Wherever a walk comes to, a pending rank can be split, and what it leaves can be sorted.** -/
theorem Stands.split_apply (hp : p.Named) (ht : t ∈ p.tensors) (hc : Stands p t c) (hx : x ∈ c.pending)
    (hs : p.rules.split? x = some s) :
    ∃ d ranks, c.split p.rules x = .ok d ∧ p.loopOrder.apply d = .ok (d.withPending ranks) ∧ ranks.Perm d.pending := by
  have hcov := (hc.onTrack hp ht).covered hp.toConsistent ht
  obtain ⟨before, after, hpend, hsplit⟩ := Cursor.split_of_mem hx hs
  have hleft := forall_mem_splice (hpend ▸ hcov) ((hcov x hx).pair hp.coherent hs)
  obtain ⟨ranks, hperm, happly⟩ := apply_total hp.toConsistent (c := c.withPending (before ++ s.pair ++ after)) hleft
  exact ⟨_, ranks, hsplit, happly, hperm⟩

/-- **A declared rank with a static rule can be split all the way**, wherever it is pending. -/
theorem splitEach_declared (hp : p.Consistent) (ht : t ∈ p.tensors) (hx : x ∈ t.ranks)
    (hst : p.rules.isStatic x = true) (hc : x ∈ c.pending) :
    ∃ d, splitEach p c (sources p x) = .ok d ∧ d.pending.Perm (p.rules.finals x ++ c.pending.erase x) := by
  obtain ⟨s, hs, -⟩ := exists_split_of_isStatic hst
  have h0 := hp.index_declared t ht x hx s hs
  obtain ⟨d, hd, hperm⟩ := splitEach_total hp.coherent _ rfl hs (List.perm_cons_erase hc)
  rw [h0, List.drop_zero, ← sources_eq hp.coherent hs h0] at hd
  refine ⟨d, hd, ?_⟩
  rw [RuleSet.finals, hs]
  exact hperm

theorem leader_declared (hp : p.Named) (ht : t ∈ p.tensors) (hx : x ∈ dynamicSources p t) :
    ∃ (s : Split) (l : Tensor), p.rules.split? x = some s ∧ p.rules.pairOf x = .ok s.pair ∧
      p.tensor? (p.rules.leader x) = some l ∧ s.rule.rank ∈ l.ranks := by
  obtain ⟨s, hs, hdyn, -⟩ := (mem_dynamicSources hp.toConsistent ht).1 hx
  obtain ⟨hr, hstep, -⟩ := hp.coherent.split?_eq_some_iff.1 hs
  obtain ⟨l, hl, hroot, hrank⟩ := hp.leads s.rule hr s.step (List.mem_of_getElem? hstep) hdyn
  refine ⟨s, l, hs, by rw [RuleSet.pairOf, hs], (Program.tensor?_eq_some_iff hp.nodup_roots).2 ⟨hl, ?_⟩, hrank⟩
  rw [RuleSet.leader, hs]
  exact hroot

/-- **Nothing fails while a validated program is built.**  The graph is there.  The output tensor can be split all the
way, with any number of steps that is enough, so that no rank is left that can be split, and sorted.  For every tensor,
the names of all ranks that its static ranks become can be given, and these ranks be split wherever they are pending;
the two parts of all that dynamic steps split can be named, and their leaders are declared and have the rank; wherever
the walk comes to, each pending rank has a place in the loop order, and if it can be split, it is split and what it
leaves is sorted; and the walk comes to its end, with any number of steps that is enough. -/
theorem graph_unfailing (hp : p.Validated) : (∃ raw, p.graph = .ok raw) ∧
    (∃ all settled, (∀ x ∈ all.pending, p.rules.isPartitioned x = false) ∧ p.loopOrder.apply all = .ok settled ∧
      ∀ fuel, (p.outputTensor.ranks.map (Cursor.pendingSplits p.rules)).sum ≤ fuel →
        Cursor.splitTimes p.rules fuel (p.cursor p.outputTensor) = .ok all) ∧
    ∀ t ∈ p.tensors,
      (∀ x ∈ t.ranks, p.rules.isStatic x = true → (∃ names, p.rules.finalsOf x = .ok names) ∧
        ∀ c : Cursor, x ∈ c.pending → ∃ d, splitEach p c (sources p x) = .ok d) ∧
      (∀ x ∈ dynamicSources p t, ∃ (s : Split) (l : Tensor), p.rules.split? x = some s ∧
        p.rules.pairOf x = .ok s.pair ∧ p.tensor? (p.rules.leader x) = some l ∧ s.rule.rank ∈ l.ranks) ∧
      (∀ c, Stands p t c → ∀ x ∈ c.pending, (∃ k, p.loopOrder.key x = .ok k) ∧
        (p.rules.isPartitioned x = true → ∃ d f, c.split p.rules x = .ok d ∧ p.loopOrder.apply d = .ok f)) ∧
      ∃ ranks opened start walked last, rankPart p t.root (p.cursor t) t.ranks = .ok (ranks, opened) ∧
        p.loopOrder.apply opened = .ok start ∧ last.pending = [] ∧
        ∀ fuel, stepsLeft p start ≤ fuel → walk p fuel start = .ok (walked, last) := by
  have hn := hp.named
  have hc := hp.consistent
  obtain ⟨raw, hraw, -⟩ := hc.graph_total
  refine ⟨⟨raw, hraw⟩, ?_, fun t ht => ⟨fun x hx hst => ⟨?_, fun c hpend => ?_⟩, fun x hx => leader_declared hn ht hx,
    fun c hstands x hx => ⟨?_, fun hpart => ?_⟩, ?_⟩⟩
  · obtain ⟨all, settled, hall, hsettled, -⟩ := exists_settled hn hc.output_mem
    rw [Program.splitAll_eq hc.coherent] at hall
    cases hall
    refine ⟨_, settled, fun x hx => ?_, hsettled, fun fuel hfuel => Program.splitTimes_eq hc.coherent fuel hfuel⟩
    obtain ⟨y, hy, hx⟩ := List.mem_flatMap.1 hx
    rw [RuleSet.isPartitioned, hc.loops_unsplit x (hc.covered _ hc.output_mem y hy x hx)]
    rfl
  · obtain ⟨s, hs, -⟩ := exists_split_of_isStatic hst
    exact ⟨_, by rw [RuleSet.finalsOf, hs]⟩
  · obtain ⟨d, hd, -⟩ := splitEach_declared hc ht hx hst hpend
    exact ⟨d, hd⟩
  · have hcov := (hstands.onTrack hn ht).covered hc ht x hx
    obtain ⟨k, hk⟩ := Option.isSome_iff_exists.1 (hcov.key?_isSome hc.coherent)
    exact ⟨k, by rw [LoopOrder.key, hk]⟩
  · obtain ⟨s, hs⟩ := Option.isSome_iff_exists.1 hpart
    obtain ⟨d, ranks, hd, happly, -⟩ := hstands.split_apply hn ht hx hs
    exact ⟨d, _, hd, happly⟩
  · obtain ⟨start, hopens⟩ := exists_opens hc ht
    obtain ⟨walked, last, hnil, hwalk⟩ := hopens.stands.walk_eq hn ht
    obtain ⟨ranks, opened, hranks, hstart⟩ := hopens
    exact ⟨ranks, opened, start, walked, last, hranks, hstart, hnil, hwalk⟩

/-- The tensor with one rank split inside the loops and one before them: the rank between the two steps is split, and
has a leader. -/
theorem graph_unfailing_tiled : tiled.Validated ∧ (∃ raw, tiled.graph = .ok raw) ∧
    (∃ names, tiled.rules.finalsOf "M" = .ok names) ∧
    ∃ (s : Split) (l : Tensor), tiled.rules.split? "K1I" = some s ∧ tiled.rules.pairOf "K1I" = .ok s.pair ∧
      tiled.tensor? (tiled.rules.leader "K1I") = some l ∧ s.rule.rank ∈ l.ranks := by
  have ht : (⟨"A", some ["K", "M"]⟩ : Tensor) ∈ tiled.tensors := List.mem_cons_self
  obtain ⟨hgraph, -, htensors⟩ := graph_unfailing validated_tiled
  obtain ⟨hstatic, hdynamic, -⟩ := htensors _ ht
  exact ⟨validated_tiled, hgraph, (hstatic "M" (by decide) (by decide +kernel)).1, hdynamic "K1I" (by decide +kernel)⟩

end Wiring
end LoopNest
