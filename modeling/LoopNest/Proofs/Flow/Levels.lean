import LoopNest.Proofs.Flow.Dependencies
import LoopNest.Proofs.Flow.Soundness
/-!
# Proofs.Flow.Levels — well-ordered programs have no cycles

A program is `WellOrdered` when the fibers that its tensors can have are told apart by their names, and the parts of
every rank that is split inside the loops are looped over from the outermost to the innermost.  Then each node gets a
level that grows along every dependency (`level_lt`).  What comes before the loops has the levels below seven.  Each
loop has a block of twelve levels, and in the block of the outer part of a split the leader comes first: it is made
anew, partitioned, and its root is taken; then the followers are partitioned, which wait for its fiber; then the loop
is entered.
-/
namespace LoopNest

open Wiring

theorem head?_eq_of_least {α : Type} {key : α → Nat} {l : List α} {a : α}
    (hsorted : l.Pairwise fun a b => key a ≤ key b) (ha : a ∈ l) (hleast : ∀ b ∈ l, b ≠ a → key a < key b) :
    l.head? = some a := by
  cases l with
  | nil => cases ha
  | cons b l =>
    rcases List.mem_cons.1 ha with rfl | ha
    · rfl
    · have hle := (List.pairwise_cons.1 hsorted).1 a ha
      by_contra hne
      have := hleast b List.mem_cons_self fun heq => hne (by rw [heq]; rfl)
      omega

namespace Program

variable {p : Program} {t : Tensor} {x : String} {s : Split}

/-- The name of the fiber at which a tensor stands when it comes to a rank, or to its end. -/
def fiberAt (p : Program) (q : Tensor × Option String) : String := ((p.cursor q.1).withPending q.2.toList).fiber

/-- The tensors of a program, each at a rank that splits can make of its declared ranks, or at its end. -/
def states (p : Program) : Set (Tensor × Option String) := {q | q.1 ∈ p.tensors ∧ ∀ x ∈ q.2, Obtainable p q.1 x}

/-- **A program whose fibers have different names**, and whose loops take the parts of each dynamically split rank from
the outermost to the innermost. -/
structure WellOrdered (p : Program) : Prop where
  distinct : Set.InjOn p.fiberAt p.states
  ordered : ∀ x ∈ p.rules.dynamicRanks, (p.rules.finals x).Sublist p.loops

/-! ## The parts of a rank -/

theorem WellOrdered.finals_sublist (h : p.WellOrdered) (hp : p.Consistent) (hs : p.rules.split? x = some s)
    (hdyn : s.step.isDynamic = true) : s.finals.Sublist p.loops := by
  obtain ⟨s', hs', hr', hi'⟩ := hp.coherent.split?_rank hs
  have hrank : s.rule.rank ∈ p.rules.dynamicRanks := by
    refine List.mem_filter.2 ⟨List.mem_map_of_mem (hp.coherent.split?_eq_some_iff.1 hs).1, ?_⟩
    rw [hp.coherent.isDynamic_rank hs, hdyn]
  have hsub := h.ordered _ hrank
  rw [RuleSet.finals, hs', Option.map_some, Option.getD_some, Split.finals, hr', hi', List.drop_zero] at hsub
  exact (List.drop_sublist _ _).trans hsub

theorem unsplit_outer (hp : p.rules.Coherent) (hs : p.rules.split? x = some s) : p.rules.split? s.outer = none :=
  hp.split?_of_mem_finals hs (hp.outer_mem_finals hs)

theorem loopsFor_eq_cons (hp : p.rules.Coherent) (hs : p.rules.split? x = some s) :
    p.loopsFor x = s.outer :: p.loopsFor s.inner := by
  rw [loopsFor_split hp hs, Split.pair, List.flatMap_cons, loopsFor_of_unsplit (unsplit_outer hp hs), List.flatMap_cons,
    List.flatMap_nil, List.append_nil]
  rfl

theorem covered_inner (hp : p.Consistent) (hs : p.rules.split? x = some s) (hx : p.Covered x) : p.Covered s.inner :=
  hx.pair hp.coherent hs _ (Split.mem_pair.2 (.inr rfl))

/-- **A rank that is split is placed where the first one of its two parts is.** -/
theorem place_split (hp : p.Consistent) (hs : p.rules.split? x = some s) (hx : p.Covered x) :
    p.place x = min (p.loops.idxOf s.outer) (p.place s.inner) := by
  have hfor := loopsFor_eq_cons hp.coherent hs
  have hinner := covered_inner hp hs hx
  apply Nat.le_antisymm
  · obtain ⟨f, hf, hplace⟩ := exists_place hp hinner
    rw [hplace, Nat.le_min]
    constructor
    · exact place_le hp hx (by rw [hfor]; exact List.mem_cons_self)
    · exact place_le hp hx (by rw [hfor]; exact List.mem_cons_of_mem _ hf)
  · obtain ⟨f, hf, hplace⟩ := exists_place hp hx
    rw [hplace]
    rw [hfor, List.mem_cons] at hf
    rcases hf with rfl | hf
    · exact Nat.min_le_left _ _
    · exact Nat.le_trans (Nat.min_le_right _ _) (place_le hp hinner hf)

theorem outer_mem_loops (hp : p.Consistent) (hs : p.rules.split? x = some s) (hx : p.Covered x) : s.outer ∈ p.loops :=
  hx s.outer (by rw [loopsFor_eq_cons hp.coherent hs]; exact List.mem_cons_self)

/-- The two parts of a split have different places. -/
theorem outer_ne_inner (hp : p.Consistent) (hs : p.rules.split? x = some s) (hx : p.Covered x) :
    p.loops.idxOf s.outer ≠ p.place s.inner := by
  obtain ⟨f, hf, hplace⟩ := exists_place hp (covered_inner hp hs hx)
  have hnd := nodup_loopsFor_rank p x
  rw [loopsFor_eq_cons hp.coherent hs, List.nodup_cons] at hnd
  intro heq
  rw [hplace, List.idxOf_inj (outer_mem_loops hp hs hx)] at heq
  exact hnd.1 (heq ▸ hf)

/-- **The outer part of a split is looped over before all that the inner one becomes.** -/
theorem WellOrdered.outer_lt (h : p.WellOrdered) (hp : p.Consistent) (hs : p.rules.split? x = some s)
    (hdyn : s.step.isDynamic = true) {f : String} (hf : f ∈ p.loopsFor s.inner) :
    p.loops.idxOf s.outer < p.loops.idxOf f := by
  have hsorted := (Agenda.pairwise_idxOf hp.nodup_loops).sublist (h.finals_sublist hp hs hdyn)
  rw [← loopsFor_of_split hs, loopsFor_eq_cons hp.coherent hs] at hsorted
  exact (List.pairwise_cons.1 hsorted).1 f hf

theorem WellOrdered.outer_lt_inner (h : p.WellOrdered) (hp : p.Consistent) (hs : p.rules.split? x = some s)
    (hdyn : s.step.isDynamic = true) (hx : p.Covered x) : p.loops.idxOf s.outer < p.place s.inner := by
  obtain ⟨f, hf, hplace⟩ := exists_place hp (covered_inner hp hs hx)
  rw [hplace]
  exact h.outer_lt hp hs hdyn hf

/-- **A dynamically split rank is placed at its outer part.** -/
theorem WellOrdered.place_eq (h : p.WellOrdered) (hp : p.Consistent) (hs : p.rules.split? x = some s)
    (hdyn : s.step.isDynamic = true) (hx : p.Covered x) : p.place x = p.loops.idxOf s.outer := by
  rw [place_split hp hs hx]
  exact Nat.min_eq_left (h.outer_lt_inner hp hs hdyn hx).le

end Program

namespace Wiring

open Program (Obtainable WellOrdered)

variable {p : Program} {t : Tensor} {x y : String} {s : Split} {c d : Cursor}

/-! ## The walk of a well-ordered program -/

/-- **After a split the walk stands at the part that is looped over first.** -/
theorem Meets.head?_eq (hp : p.Named) (ht : t ∈ p.tensors) (hm : Meets p t x c d) (hs : p.rules.split? x = some s) :
    d.pending.head? = some (if p.loops.idxOf s.outer < p.place s.inner then s.outer else s.inner) := by
  have hp' := hp.toConsistent
  have htrack := hm.1.onTrack hp ht
  obtain ⟨s', rest, hs', -, hpend, hperm, hsorted, -⟩ := hm.exists_split hp ht
  rw [hs] at hs'
  cases hs'
  have hx : p.Covered x := htrack.covered hp' ht x (by rw [hpend]; exact List.mem_cons_self)
  have hplace := Program.place_split hp' hs hx
  have houter := Program.place_of_mem hp' (Program.outer_mem_loops hp' hs hx)
  have hmem : ∀ y ∈ s.pair, y ∈ d.pending := fun y hy => hperm.mem_iff.2 (List.mem_append_left _ hy)
  -- Every pending rank that the split has not made has a greater place than what is split.
  have hrest : ∀ y ∈ rest, p.place x < p.place y := by
    intro y hy
    obtain ⟨f, hf, hf'⟩ := Program.exists_place hp'
      (htrack.covered hp' ht y (by rw [hpend]; exact List.mem_cons_of_mem _ hy))
    rw [hf']
    exact htrack.place_lt hp ht hpend (List.mem_flatMap.2 ⟨y, hy, hf⟩)
  by_cases hlt : p.loops.idxOf s.outer < p.place s.inner
  · rw [if_pos hlt]
    refine head?_eq_of_least hsorted (hmem _ (Split.mem_pair.2 (.inl rfl))) fun y hy hne => ?_
    rw [houter]
    rcases List.mem_append.1 (hperm.mem_iff.1 hy) with hy | hy
    · rwa [(Split.mem_pair.1 hy).resolve_left hne]
    · have := hrest y hy
      omega
  · have hne' := Program.outer_ne_inner hp' hs hx
    rw [if_neg hlt]
    refine head?_eq_of_least hsorted (hmem _ (Split.mem_pair.2 (.inr rfl))) fun y hy hne => ?_
    rcases List.mem_append.1 (hperm.mem_iff.1 hy) with hy | hy
    · rw [(Split.mem_pair.1 hy).resolve_right hne, houter]
      omega
    · have := hrest y hy
      omega

theorem Meets.head_eq (h : p.WellOrdered) (hp : p.Named) (ht : t ∈ p.tensors) (hm : Meets p t x c d)
    (hs : p.rules.split? x = some s) : d.pending.head? = some s.outer := by
  obtain ⟨s', rest, hs', hdyn, hpend, -⟩ := hm.exists_split hp ht
  rw [hs] at hs'
  cases hs'
  have hx := (hm.1.onTrack hp ht).covered hp.toConsistent ht x (by rw [hpend]; exact List.mem_cons_self)
  rw [hm.head?_eq hp ht hs, if_pos (h.outer_lt_inner hp.toConsistent hs hdyn hx)]

/-- What a dynamic step has made is pending only while its outer part is ahead, or after it was consumed. -/
def Trails (p : Program) (c : Cursor) : Prop := ∀ y ∈ c.pending, ∀ s, p.rules.maker? y = some s →
  s.step.isDynamic = true → s.outer ∈ c.consumed ∨ c.pending.head? = some s.outer

/-- What a walk starts with was made by no dynamic step. -/
theorem Opens.maker_static (hp : p.Named) (ht : t ∈ p.tensors) (h : Opens p t c) (hy : y ∈ c.pending)
    (hs : p.rules.maker? y = some s) : s.step.isDynamic = false := by
  obtain ⟨hsplit, hpair⟩ := (hp.coherent.maker?_eq_some_iff hp.separate).1 hs
  obtain ⟨x, hx, hy⟩ := List.mem_flatMap.1 ((h.pending_perm hp.toConsistent ht).1.mem_iff.1 hy)
  unfold opened at hy
  split at hy
  · rename_i hst
    obtain ⟨s', hs', hst'⟩ := exists_split_of_isStatic hst
    rw [Program.loopsFor_of_split hs'] at hy
    have hr := hp.separate.rule_unique (hp.coherent.split?_eq_some_iff.1 hsplit).1
      (hp.coherent.split?_eq_some_iff.1 hs').1 (hp.coherent.produces_of_pair hsplit hpair)
      (Rule.produces_iff.2 (.inl (List.mem_of_mem_drop hy)))
    rw [← hst', hp.coherent.isDynamic_eq hs' hsplit hr]
  · rw [List.mem_singleton.1 hy, hp.maker?_declared ht hx] at hs
    cases hs

theorem Stands.trails (h : p.WellOrdered) (hp : p.Named) (ht : t ∈ p.tensors) (hc : Stands p t c) : Trails p c := by
  refine hc.induction (fun c hopens y hy s hs hdyn => ?_) fun c es d hc ih hm => ?_
  · rw [hopens.maker_static hp ht hy hs] at hdyn
    cases hdyn
  rcases hc.enters_or_meets hm with ⟨x, hx⟩ | ⟨x, hx⟩
  · obtain ⟨rest, hpend, rfl⟩ := Cursor.pop?_eq_some.1 hx.2.1
    intro y hy s hs hdyn
    left
    rcases ih y (by rw [hpend]; exact List.mem_cons_of_mem _ hy) s hs hdyn with h | h
    · exact List.mem_append_left _ h
    · rw [hpend] at h
      cases h
      exact List.mem_append_right _ List.mem_cons_self
  · obtain ⟨s, rest, hs, -, hpend, hperm, -, hd, -⟩ := hx.exists_split hp ht
    have hconsumed : d.consumed = c.consumed := by rw [hd]; rfl
    intro y hy s' hs' hdyn
    rw [hconsumed]
    rcases List.mem_append.1 (hperm.mem_iff.1 hy) with hy | hy
    · rw [hp.maker?_of_split hs hy] at hs'
      cases hs'
      exact .inr (hx.head_eq h hp ht hs)
    · -- An outer part is not split, so it was not the first rank before.
      rcases ih y (by rw [hpend]; exact List.mem_cons_of_mem _ hy) s' hs' hdyn with h' | h'
      · exact .inl h'
      · rw [hpend] at h'
        cases h'
        have hsplit := ((hp.coherent.maker?_eq_some_iff hp.separate).1 hs').1
        rw [Program.unsplit_outer hp.coherent hsplit] at hs
        cases hs

/-! ## Levels -/

/-- The level with number `j` in the block of the loop at position `k`. -/
def block (k j : Nat) : Nat :=
  -- 0, 1: the tensor arrives at the loop; 2: it is made anew from its fiber; 3 to 6: the leader is partitioned, its new
  -- ranks are there, its root is taken and gives a fiber; 7 to 10: the same for the followers; 11: the loop is entered.
  12 * k + j + 7

/-- The level of a rank: by the split that makes it. -/
def rankLevel (p : Program) (root x : String) : Nat :=
  match p.rules.maker? x with
  | none => 2
  | some s =>
    if s.step.isDynamic then block (p.loops.idxOf s.outer) (if s.step.leader = root then 4 else 8) else 4

/-- The level of the partitioning of a rank. -/
def partLevel (p : Program) (root x : String) : Nat :=
  match p.rules.split? x with
  | none => 3
  | some s =>
    if s.step.isDynamic then block (p.loops.idxOf s.outer) (if s.step.leader = root then 3 else 7) else 3

/-- Where in its block a tensor takes its root at a rank: after a split if a split has made the rank. -/
def takenAt (p : Program) (root x : String) : Nat :=
  match p.rules.maker? x with
  | none => 0
  | some s =>
    if s.step.isDynamic && !p.rules.isDynamic x then (if s.step.leader = root then 5 else 9) else 0

/-- The level at which a tensor takes its root at a rank, or at its end. -/
def rootLevel (p : Program) (root : String) : Option String → Nat
  | none => block p.loops.length 0
  | some x => block (p.place x) (takenAt p root x)

/-- The level of a point of the program. -/
def anchorLevel (p : Program) (a : Anchor) : Nat :=
  if a = .graphics then 5 else if a = .startLoop then 6 else if a = .body then block p.loops.length 2
  else if a = .footer then block p.loops.length 3 else 0

/-- **The level of a node.**  The level of a fiber is that of the state with its name. -/
noncomputable def level (p : Program) : Node → Nat
  | .blank => 0
  | .tensor _ => 1
  | .rank root x => rankLevel p root x
  | .fiber name =>
    have : Nonempty (Tensor × Option String) := ⟨⟨"", none⟩, none⟩
    let q := Function.invFunOn p.fiberAt p.states name
    rootLevel p q.1.root q.2 + 1
  | .loop x => block (p.loops.idxOf x) 11
  | .part root ranks => partLevel p root (ranks.ids.headD "")
  | .fromFiber _ x => block (p.place x) 2
  | .swizzle root ranks => rootLevel p root ranks.ids.head?
  | .other a => anchorLevel p a

theorem level_fiberAt (h : p.WellOrdered) {q : Tensor × Option String} (hq : q ∈ p.states) :
    level p (.fiber (p.fiberAt q)) = rootLevel p q.1.root q.2 + 1 := by
  have : Nonempty (Tensor × Option String) := ⟨q⟩
  rw [level, h.distinct.leftInvOn_invFunOn hq]

theorem OnTrack.fiber_eq (hc : OnTrack p t c) : c.fiber = p.fiberAt (t, c.peek?) := by
  unfold Program.fiberAt Cursor.fiber Cursor.peek?
  rw [hc.root, hc.output]
  cases c.pending <;> rfl

theorem level_fiber (h : p.WellOrdered) (ht : t ∈ p.tensors) (hc : OnTrack p t c) :
    level p (.fiber c.fiber) = rootLevel p t.root c.peek? + 1 := by
  rw [hc.fiber_eq]
  exact level_fiberAt h ⟨ht, fun x hx => hc.obtained x (List.mem_of_head? hx)⟩

theorem level_swizzle (hp : p.Named) (ht : t ∈ p.tensors) (hc : OnTrack p t c) :
    level p (.ofSwizzle t.root c.pending) = rootLevel p t.root c.peek? := by
  rw [Node.ofSwizzle, RankTuple.ofList_of_plain fun x hx => (hc.obtained x hx).plain hp ht]
  rfl

theorem level_part (hp : p.Named) (ht : t ∈ p.tensors) (hx : Obtainable p t x) :
    level p (.ofPart t.root [x]) = partLevel p t.root x := by
  rw [Node.ofPart, RankTuple.ofList_of_plain fun y hy => List.mem_singleton.1 hy ▸ hx.plain hp ht]
  rfl

theorem partLevel_of_dynamic (hs : p.rules.split? x = some s) (hdyn : s.step.isDynamic = true) (root : String) :
    partLevel p root x = block (p.loops.idxOf s.outer) (if s.step.leader = root then 3 else 7) := by
  simp only [partLevel, hs, hdyn, if_true]

theorem rankLevel_of_dynamic (hs : p.rules.maker? x = some s) (hdyn : s.step.isDynamic = true) (root : String) :
    rankLevel p root x = block (p.loops.idxOf s.outer) (if s.step.leader = root then 4 else 8) := by
  simp only [rankLevel, hs, hdyn, if_true]

/-- A rank that no dynamic step has made is there before the loops. -/
theorem rankLevel_le (h : ¬ ∃ s, p.rules.maker? x = some s ∧ s.step.isDynamic = true) (root : String) :
    rankLevel p root x ≤ 4 := by
  unfold rankLevel
  split
  · omega
  · rename_i s hs
    rw [if_neg fun hdyn => h ⟨s, hs, hdyn⟩]

theorem two_le_rankLevel (p : Program) (root x : String) : 2 ≤ rankLevel p root x := by
  unfold rankLevel block
  split
  · omega
  · split <;> omega

theorem four_le_rankLevel (hs : p.rules.maker? x = some s) (root : String) : 4 ≤ rankLevel p root x := by
  simp only [rankLevel, hs, block]
  split
  · split <;> omega
  · omega

theorem takenAt_le (p : Program) (root x : String) : takenAt p root x ≤ 9 := by
  unfold takenAt
  split
  · omega
  · split
    · split <;> omega
    · omega

theorem takenAt_of_isDynamic (hdyn : p.rules.isDynamic x = true) (root : String) : takenAt p root x = 0 := by
  unfold takenAt
  split
  · rfl
  · rw [hdyn, Bool.not_true, Bool.and_false]
    rfl

theorem takenAt_of_made (hs : p.rules.maker? x = some s) (hdyn : s.step.isDynamic = true)
    (hx : p.rules.split? x = none) (root : String) : takenAt p root x = if s.step.leader = root then 5 else 9 := by
  simp only [takenAt, hs, hdyn, RuleSet.isDynamic, hx, Option.any_none, Bool.not_false, Bool.and_self, if_true]

theorem seven_le_rootLevel (p : Program) (root : String) (o : Option String) : 7 ≤ rootLevel p root o := by
  cases o <;> simp only [rootLevel, block] <;> omega

theorem level_output (p : Program) : level p output = 0 := rfl

theorem level_graphics (p : Program) : level p graphics = 5 := rfl

theorem level_startLoop (p : Program) : level p startLoop = 6 := rfl

theorem level_body (p : Program) : level p body = block p.loops.length 2 := rfl

theorem level_footer (p : Program) : level p footer = block p.loops.length 3 := rfl

/-! ## Levels grow along every dependency -/

section
variable (h : p.WellOrdered) (hp : p.Named) (ht : t ∈ p.tensors)

include hp ht in
theorem place_outer (hs : p.rules.split? x = some s) (hx : Obtainable p t x) :
    p.place s.outer = p.loops.idxOf s.outer := by
  exact Program.place_of_mem hp.toConsistent (Program.outer_mem_loops hp.toConsistent hs (hx.covered hp.toConsistent ht))

include h hp ht

/-- **A rank that is split again was made by an outer loop.** -/
theorem rankLevel_lt_of_split (hs : p.rules.split? x = some s) (hdyn : s.step.isDynamic = true)
    (hrank : s.rule.rank ∈ t.ranks) (root : String) (j : Nat) :
    rankLevel p root x < block (p.loops.idxOf s.outer) j := by
  have hp' := hp.toConsistent
  by_cases hmade : ∃ s', p.rules.maker? x = some s' ∧ s'.step.isDynamic = true
  · obtain ⟨s', hs', hdyn'⟩ := hmade
    obtain ⟨hsplit', hpair'⟩ := (hp.coherent.maker?_eq_some_iff hp.separate).1 hs'
    have hrule := hp.coherent.rule_of_pair hsplit' hpair' hs
    have hcov := (Obtainable.of_rule hp' hsplit' (hrule ▸ hrank)).covered hp' ht
    have hinner : x = s'.inner := (Split.mem_pair.1 hpair').resolve_left fun heq => by
      rw [heq, Program.unsplit_outer hp.coherent hsplit'] at hs
      cases hs
    have hlt := h.outer_lt_inner hp' hsplit' hdyn' hcov
    rw [← hinner, h.place_eq hp' hs hdyn ((Obtainable.of_rule hp' hs hrank).covered hp' ht)] at hlt
    rw [rankLevel_of_dynamic hs' hdyn']
    unfold block
    split <;> omega
  · have hle := rankLevel_le hmade root
    unfold block
    omega

/-- A split inside the loops comes after the fiber of its leader, and before what it makes. -/
theorem level_lt_of_splitDepends (hs : p.rules.split? x = some s) (hdyn : s.step.isDynamic = true)
    (hrank : s.rule.rank ∈ t.ranks) {a b : Node} (hd : SplitDepends t.root x s a b) : level p a < level p b := by
  have hp' := hp.toConsistent
  have hx := Obtainable.of_rule hp' hs hrank
  have hpart : level p (.ofPart t.root [x]) =
      block (p.loops.idxOf s.outer) (if s.step.leader = t.root then 3 else 7) := by
    rw [level_part hp ht hx, partLevel_of_dynamic hs hdyn]
  cases hd with
  | source =>
    rw [hpart]
    exact rankLevel_lt_of_split h hp ht hs hdyn hrank _ _
  | @made y hy =>
    rw [hpart]
    change _ < rankLevel p t.root y
    rw [rankLevel_of_dynamic (hp.maker?_of_split hs hy) hdyn]
    unfold block
    split <;> omega
  | led hleader =>
    obtain ⟨hr, hstep, -⟩ := hp.coherent.split?_eq_some_iff.1 hs
    obtain ⟨l, hl, hroot, hrank'⟩ := hp.leads s.rule hr s.step (List.mem_of_getElem? hstep) hdyn
    have hx' := Obtainable.of_rule hp' hs hrank'
    have houter : s.outer ∈ s.pair := Split.mem_pair.2 (.inl rfl)
    have hstate : (l, some s.outer) ∈ p.states := ⟨hl, fun y hy => by cases hy; exact hx'.made hs houter⟩
    have hlevel : level p (.fiber (fiberName s.step.leader s.outer)) = block (p.loops.idxOf s.outer) 6 := by
      rw [← hroot]
      change level p (.fiber (p.fiberAt (l, some s.outer))) = _
      rw [level_fiberAt h hstate, rootLevel, place_outer hp hl hs hx', takenAt_of_made (hp.maker?_of_split hs houter) hdyn
        (Program.unsplit_outer hp.coherent hs), if_pos hroot.symm]
      rfl
    rw [hlevel, hpart, if_neg hleader]
    unfold block
    omega

theorem level_lt_of_rankDepends (hx : x ∈ t.ranks) {a b : Node} (hd : RankDepends p t.root x a b) :
    level p a < level p b := by
  have hpart : p.rules.isStatic x = true → level p (.ofPart t.root [x]) = 3 := by
    intro hst
    obtain ⟨s, hs, hdyn⟩ := exists_split_of_isStatic hst
    rw [level_part hp ht (.declared hx)]
    simp only [partLevel, hs, hdyn, Bool.false_eq_true, if_false]
  cases hd with
  | declared => exact two_le_rankLevel p t.root x
  | source hst =>
    rw [hpart hst]
    change rankLevel p t.root x < 3
    simp [rankLevel, hp.maker?_declared ht hx]
  | @final f hst hf =>
    rw [hpart hst]
    change 3 < rankLevel p t.root f
    obtain ⟨s, hs, -⟩ := exists_split_of_isStatic hst
    rw [RuleSet.finals, hs] at hf
    obtain ⟨s', hs', hf'⟩ := List.mem_flatMap.1
      (Rule.mem_pairs_iff.2 (Rule.produces_iff.2 (.inl (List.mem_of_mem_drop hf))))
    obtain ⟨hr', hstep'⟩ := Rule.mem_splits.1 hs'
    have hsplit : p.rules.split? s'.source = some s' := hp.coherent.split?_eq_some_iff.2
      ⟨hr' ▸ (hp.coherent.split?_eq_some_iff.1 hs).1, hr' ▸ hstep', rfl⟩
    exact four_le_rankLevel (hp.maker?_of_split hsplit hf') t.root
  | graphics hst => rw [hpart hst, level_graphics]; decide
  | split hs hdyn hrank hd =>
    subst hrank
    exact level_lt_of_splitDepends h hp ht hs hdyn hx hd

/-- **The root of a tensor is taken after its pending ranks were made.** -/
theorem rankLevel_lt_rootLevel (hc : Takes p t c) (hx : x ∈ c.pending) :
    rankLevel p t.root x < rootLevel p t.root c.peek? := by
  have hp' := hp.toConsistent
  have htrack := hc.stands.onTrack hp ht
  have hseven := seven_le_rootLevel p t.root c.peek?
  by_cases hmade : ∃ s, p.rules.maker? x = some s ∧ s.step.isDynamic = true
  · obtain ⟨s, hs, hdyn⟩ := hmade
    have hsplit := ((hp.coherent.maker?_eq_some_iff hp.separate).1 hs).1
    obtain ⟨y, ys, hpend⟩ := List.exists_cons_of_ne_nil (List.ne_nil_of_mem hx)
    have hy : c.peek? = some y := by rw [Cursor.peek?, hpend]; rfl
    have hymem : y ∈ c.pending := List.mem_of_head? hy
    rw [rankLevel_of_dynamic hs hdyn, hy, rootLevel]
    rcases hc.stands.trails h hp ht x hx s hs hdyn with hout | hout
    · have := htrack.behind_place hp' ht hout hymem
      unfold block
      split <;> omega
    · rw [hpend] at hout
      cases hout
      have hunsplit := Program.unsplit_outer hp.coherent hsplit
      rw [Program.place_of_mem hp' ((htrack.covered hp' ht _ hymem).mem_loops hunsplit),
        takenAt_of_made (hp.maker?_of_split hsplit (Split.mem_pair.2 (.inl rfl))) hdyn hunsplit]
      unfold block
      split <;> omega
  · have hle := rankLevel_le hmade t.root
    omega

theorem level_lt_of_depends {a b : Node} (hd : Depends p t a b) : level p a < level p b := by
  have hp' := hp.toConsistent
  cases hd with
  | rank hx hd => exact level_lt_of_rankDepends h hp ht hx hd
  | @tensorTaken c hc =>
    rw [level_swizzle hp ht (hc.stands.onTrack hp ht)]
    have := seven_le_rootLevel p t.root c.peek?
    change 1 < _
    omega
  | rankTaken hc hx =>
    rw [level_swizzle hp ht (hc.stands.onTrack hp ht)]
    exact rankLevel_lt_rootLevel h hp ht hc hx
  | root hc =>
    rw [level_swizzle hp ht (hc.stands.onTrack hp ht), level_fiber h ht (hc.stands.onTrack hp ht)]
    exact Nat.lt_succ_self _
  | @remade x c d hm =>
    rw [level_fiber h ht (hm.1.onTrack hp ht), hm.2.1, rootLevel, takenAt_of_isDynamic hm.2.2.1]
    exact Nat.lt_succ_self _
  | @cut x c d hm =>
    obtain ⟨s, rest, hs, hdyn, hpend, -⟩ := hm.exists_split hp ht
    have hx := (hm.1.onTrack hp ht).obtained x (by rw [hpend]; exact List.mem_cons_self)
    rw [level_part hp ht hx, partLevel_of_dynamic hs hdyn, ← h.place_eq hp' hs hdyn (hx.covered hp' ht)]
    change block (p.place x) 2 < _
    unfold block
    split <;> omega
  | @enter x c d hm =>
    obtain ⟨rest, hpend, -⟩ := Cursor.pop?_eq_some.1 hm.2.1
    have hpeek : c.peek? = some x := by rw [Cursor.peek?, hpend]; rfl
    have hle := takenAt_le p t.root x
    rw [level_fiber h ht (hm.1.onTrack hp ht), hpeek, rootLevel, Program.place_of_mem hp' (hm.mem_loops hp ht)]
    change _ < block (p.loops.idxOf x) 11
    unfold block
    omega
  | @next x c d hm =>
    have htrack := (hm.1.move hm.move).onTrack hp ht
    have hxc : x ∈ d.consumed := by
      obtain ⟨rest, -, rfl⟩ := Cursor.pop?_eq_some.1 hm.2.1
      exact List.mem_append_right _ List.mem_cons_self
    rw [level_fiber h ht htrack]
    change block (p.loops.idxOf x) 11 < _
    cases hpeek : d.peek? with
    | none =>
      have hlt := List.idxOf_lt_length_of_mem (hm.mem_loops hp ht)
      simp only [rootLevel, block]
      omega
    | some y =>
      have := htrack.behind_place hp' ht hxc (List.mem_of_head? hpeek)
      simp only [rootLevel, block]
      omega
  | finish hc hnil =>
    rw [level_fiber h ht (hc.onTrack hp ht), Cursor.peek?, hnil, level_body]
    exact Nat.lt_succ_self _

end

theorem level_lt_of_skeleton (hp : p.Consistent) {e : Dependency} (he : e ∈ skeleton p) : level p e.1 < level p e.2 := by
  have hloops : (p.loops.map Node.loop).Pairwise fun a b => level p a < level p b := by
    rw [List.pairwise_map]
    refine (Agenda.pairwise_idxOf hp.nodup_loops).imp fun {x y} hxy => ?_
    change block (p.loops.idxOf x) 11 < block (p.loops.idxOf y) 11
    unfold block
    omega
  have hbounds : ∀ n ∈ p.loops.map Node.loop, 7 ≤ level p n ∧ level p n < block p.loops.length 0 := by
    intro n hn
    obtain ⟨x, hx, rfl⟩ := List.mem_map.1 hn
    have := List.idxOf_lt_length_of_mem hx
    change 7 ≤ block (p.loops.idxOf x) 11 ∧ block (p.loops.idxOf x) 11 < _
    unfold block
    omega
  have hends : ∀ n ∈ [body, footer], block p.loops.length 0 < level p n := by
    intro n hn
    rcases List.mem_pair.1 hn with rfl | rfl
    · rw [level_body]; unfold block; omega
    · rw [level_footer]; unfold block; omega
  have hinside : (p.loops.map Node.loop ++ [body, footer]).Pairwise fun a b => level p a < level p b := by
    refine List.pairwise_append.2 ⟨hloops, ?_, fun n hn m hm => (hbounds n hn).2.trans (hends m hm)⟩
    rw [List.pairwise_pair, level_body, level_footer]
    exact Nat.lt_succ_self _
  have hseven : ∀ n ∈ p.loops.map Node.loop ++ [body, footer], 7 ≤ level p n := by
    intro n hn
    rcases List.mem_append.1 hn with hn | hn
    · exact (hbounds n hn).1
    · have := hends n hn
      unfold block at this
      omega
  have hloop : (startLoop :: p.loops.map Node.loop ++ [body, footer]).Pairwise fun a b => level p a < level p b :=
    List.pairwise_cons.2 ⟨fun n hn => by rw [level_startLoop]; exact hseven n hn, hinside⟩
  rcases List.mem_cons.1 he with rfl | he
  · change level p output < level p graphics
    rw [level_output, level_graphics]
    omega
  rcases List.mem_cons.1 he with rfl | he
  · change level p graphics < level p startLoop
    rw [level_graphics, level_startLoop]
    omega
  · exact rel_of_mem_chain hloop e he

/-- **In a well-ordered program levels grow along every edge.** -/
theorem level_lt (h : p.WellOrdered) (hp : p.Named) {raw : Graph Node} (hraw : p.graph = .ok raw) {a b : Node}
    (he : raw.Edge a b) : level p a < level p b := by
  rcases (edge_iff hp hraw).1 he with he | he | ⟨t, ht, hd⟩
  · exact level_lt_of_skeleton hp.toConsistent he
  · cases he
    exact Nat.zero_lt_one
  · exact level_lt_of_depends h hp ht hd

end Wiring

namespace Program

theorem WellOrdered.acyclic {p : Program} (h : p.WellOrdered) (hp : p.Named) {raw : Graph Node}
    (hraw : p.graph = .ok raw) : raw.Acyclic := by
  have hpath : ∀ {a b}, raw.Path a b → level p a < level p b := by
    intro a b hab
    induction hab with
    | single he => exact level_lt h hp hraw he
    | tail _ he ih => exact ih.trans (level_lt h hp hraw he)
  exact fun n hn => Nat.lt_irrefl _ (hpath hn)

/-- A program is well ordered if its fibers differ for a list of ranks that has the declared ones and is closed under
splitting. -/
theorem wellOrdered_of_closed {p : Program} {l : List String}
    (hdeclared : ∀ t ∈ p.tensors, ∀ x ∈ t.ranks, x ∈ l)
    (hclosed : ∀ x ∈ l, ∀ s ∈ p.rules.split? x, ∀ y ∈ s.pair, y ∈ l)
    (hdistinct : ∀ t ∈ p.tensors, ∀ u ∈ p.tensors, ∀ o ∈ none :: l.map some, ∀ o' ∈ none :: l.map some,
      p.fiberAt (t, o) = p.fiberAt (u, o') → t = u ∧ o = o')
    (hordered : ∀ x ∈ p.rules.dynamicRanks, (p.rules.finals x).Sublist p.loops) : p.WellOrdered := by
  have hstate : ∀ q ∈ p.states, q.2 ∈ none :: l.map some := by
    rintro ⟨t, _ | x⟩ ⟨ht, hx⟩
    · exact List.mem_cons_self
    · have hmem : x ∈ l := (hx x rfl).mem_of_closed (hdeclared t ht) hclosed
      exact List.mem_cons_of_mem _ (List.mem_map_of_mem hmem)
  refine ⟨fun q hq q' hq' heq => ?_, hordered⟩
  exact Prod.ext_iff.2 (hdistinct q.1 hq.1 q'.1 hq'.1 q.2 (hstate q hq) q'.2 (hstate q' hq') heq)

theorem WellOrdered.exists_plan {p : Program} (h : p.WellOrdered) (hp : p.Validated) : ∃ plan, p.plan = .ok plan := by
  obtain ⟨raw, hraw, -⟩ := hp.consistent.graph_total
  have hacyc := h.acyclic hp.named hraw
  exact hp.consistent.plan_of_acyclic hraw ((wellFormed_of_graph hraw).acyclic_contract _ hacyc)

end Program

/-- **A well-ordered program has a plan.**  If a validated program has fibers with different names and takes the parts
of each dynamically split rank from the outermost to the innermost, then its graph has no cycle, it has a plan, and the
loops of the plan are those of the program in their order. -/
theorem plan_of_wellOrdered {p : Program} (hp : p.Validated) (h : p.WellOrdered) : ∃ raw plan, p.graph = .ok raw ∧
    raw.hasCycle = false ∧ p.plan = .ok plan ∧ plan.order.filter Node.isLoop = p.loops.map Node.loop := by
  have hc := hp.consistent
  obtain ⟨raw, hraw, -⟩ := hc.graph_total
  have hw := Program.wellFormed_of_graph hraw
  have hacyc := h.acyclic hp.named hraw
  obtain ⟨plan, hplan⟩ := hc.plan_of_acyclic hraw (hw.acyclic_contract _ hacyc)
  exact ⟨raw, plan, hraw, hw.hasCycle_eq_false_iff.2 hacyc, hplan, hc.loops_of_plan hplan⟩

namespace Wiring

/-- The ranks of the program with two steps, on the way and in the end. -/
def twoStepsRanks : List String := ["K", "K2", "K1I", "K1", "K0", "M"]

theorem wellOrdered_twoSteps : twoSteps.WellOrdered :=
  Program.wellOrdered_of_closed (l := twoStepsRanks) (by decide) (by decide +kernel) (by decide +kernel)
    (by decide +kernel)

end Wiring

/-- The program in which one tensor leads another through two steps has a plan, with its four loops in their order. -/
theorem plan_of_wellOrdered_twoSteps : twoSteps.Validated ∧ twoSteps.WellOrdered ∧
    ∃ raw plan, twoSteps.graph = .ok raw ∧ raw.hasCycle = false ∧ twoSteps.plan = .ok plan ∧
      plan.order.filter Node.isLoop = [.loop "K2", .loop "M", .loop "K1", .loop "K0"] :=
  ⟨validated_twoSteps, wellOrdered_twoSteps, plan_of_wellOrdered validated_twoSteps wellOrdered_twoSteps⟩

end LoopNest
