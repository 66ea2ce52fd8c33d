import LoopNest.Flow.Wiring
import LoopNest.Proofs.Program.Placing
import LoopNest.Proofs.Graph.Reach
/-!
# Proofs.Flow.Building — the graph of a consistent program is always built

Building can only fail where a rank is split that is not pending or has no rule, where a pending rank has no place in
the loop order, or where a leader is missing.  On a consistent program every pending rank is covered, and once the
static splits are made it is `Walkable`: a rank that the walk meets has a loop or is split by a dynamic step.  Each
routine below succeeds on such ranks and keeps them so; `edges_total` puts them together.  On the way the shape of the
dependencies is noted (`Wired`): their ends differ, and a loop at an end is a loop of the program.
-/
namespace LoopNest

/-! ## Splitting and sorting pending ranks -/

theorem forall_mem_splice {P : String → Prop} {before made after : List String} {x : String}
    (h : ∀ y ∈ before ++ x :: after, P y) (hmade : ∀ y ∈ made, P y) : ∀ y ∈ before ++ made ++ after, P y := by
  intro y hy
  rcases List.mem_append.1 hy with hy | hy
  · rcases List.mem_append.1 hy with hy | hy
    · exact h y (List.mem_append_left _ hy)
    · exact hmade y hy
  · exact h y (List.mem_append_right _ (List.mem_cons_of_mem _ hy))

namespace Wiring

variable {p : Program} {x : String} {s : Split}

theorem apply_total (hp : p.Consistent) {c : Cursor} (h : ∀ x ∈ c.pending, p.Covered x) :
    ∃ ranks, ranks.Perm c.pending ∧ p.loopOrder.apply c = .ok (c.withPending ranks) := by
  obtain ⟨ranks, hperm, -, happly⟩ := Program.apply_sorted hp h
  exact ⟨ranks, hperm, happly⟩

/-- **Splitting a rank and what its splits leave**: the rank gives way to the final ranks of its split. -/
theorem splitEach_total (hp : p.rules.Coherent) : ∀ (n : Nat) {x : String} {s : Split} {c : Cursor} {rest : List String},
    s.rule.steps.length - s.index = n → p.rules.split? x = some s → c.pending.Perm (x :: rest) →
    ∃ d, splitEach p c ((s.rule.splits.drop s.index).map Split.source) = .ok d ∧ d.pending.Perm (s.finals ++ rest)
  | n, x, s, c, rest, hn, hs, hperm => by
    obtain ⟨hr, hstep, hsrc⟩ := hp.split?_eq_some_iff.1 hs
    have hlt := Split.index_lt hstep
    have hlen : s.rule.splits.length = s.rule.steps.length := by simp [Rule.splits]
    obtain ⟨before, after, hc, hsplit⟩ := Cursor.split_of_mem (hperm.mem_iff.2 List.mem_cons_self) hs
    have hmid : (before ++ after).Perm rest :=
      List.Perm.cons_inv (List.perm_middle.symm.trans (hc ▸ hperm))
    have hpend : (before ++ s.pair ++ after).Perm (s.inner :: s.outer :: rest) := by
      rw [List.append_assoc]
      refine (List.perm_append_comm_assoc before s.pair after).trans ?_
      exact (List.Perm.append_left s.pair hmid).trans (List.Perm.swap s.inner s.outer rest)
    rw [Split.drop_splits hstep, List.map_cons, hsrc, splitEach, hsplit]
    by_cases hlast : s.index + 1 = s.rule.steps.length
    · rw [hlast, ← hlen, List.drop_length, Split.finals_of_last hlast]
      exact ⟨_, rfl, hpend.trans (List.Perm.swap s.outer s.inner rest)⟩
    · obtain ⟨s', hs', hr', hi'⟩ := hp.split?_inner hs hlast
      obtain ⟨d, hd, hperm'⟩ := splitEach_total hp (n - 1) (c := c.withPending (before ++ s.pair ++ after))
        (by rw [hr', hi']; omega) hs' hpend
      rw [hr', hi'] at hd
      refine ⟨d, hd, hperm'.trans ?_⟩
      rw [Split.finals_of_next hr' hi' (by omega)]
      exact List.perm_middle
termination_by n => n
decreasing_by omega

theorem sources_eq (hp : p.rules.Coherent) (hs : p.rules.split? x = some s) (h0 : s.index = 0) :
    sources p x = s.rule.splits.map Split.source := by
  obtain ⟨hr, -, hsrc⟩ := hp.split?_eq_some_iff.1 hs
  have hrank : s.rule.rank = x := by rw [← hsrc, Split.source, if_pos h0]
  rw [sources, RuleSet.intermediates, hp.rule?_eq hs h0, Option.map_some, Option.getD_some,
    Rule.map_source_splits (hp.steps_ne_nil _ hr), hrank]

/-! ## Ranks on a walk -/

/-- A rank that a walk can meet: it is covered, and no static step splits it. -/
def Walkable (p : Program) (x : String) : Prop := p.Covered x ∧ p.rules.isStatic x = false

theorem Walkable.pair (hp : p.rules.Coherent) (hx : Walkable p x) (hs : p.rules.split? x = some s) :
    ∀ y ∈ s.pair, Walkable p y := by
  intro y hy
  refine ⟨hx.1.pair hp hs y hy, ?_⟩
  have hdyn : s.step.isDynamic = true := by simpa [RuleSet.isStatic, hs] using hx.2
  cases hs' : p.rules.split? y with
  | none => simp [RuleSet.isStatic, hs']
  | some s' =>
    have heq := hp.isDynamic_eq hs hs' (hp.rule_of_pair hs hy hs')
    simp [RuleSet.isStatic, hs', heq, hdyn]

theorem Walkable.mem_loops (hx : Walkable p x) (h : p.rules.isDynamic x = false) : x ∈ p.loops := by
  apply hx.1.mem_loops
  cases hs : p.rules.split? x with
  | none => rfl
  | some s =>
    have h1 : s.step.isDynamic = true := by simpa [RuleSet.isStatic, hs] using hx.2
    have h2 : s.step.isDynamic = false := by simpa [RuleSet.isDynamic, hs] using h
    rw [h1] at h2
    cases h2

theorem exists_split_of_isStatic (h : p.rules.isStatic x = true) :
    ∃ s, p.rules.split? x = some s ∧ s.step.isDynamic = false := by
  cases hs : p.rules.split? x with
  | none => simp [RuleSet.isStatic, hs] at h
  | some s => exact ⟨s, rfl, by simpa [RuleSet.isStatic, hs] using h⟩

theorem exists_split_of_isDynamic (h : p.rules.isDynamic x = true) :
    ∃ s, p.rules.split? x = some s ∧ s.step.isDynamic = true := by
  cases hs : p.rules.split? x with
  | none => simp [RuleSet.isDynamic, hs] at h
  | some s => exact ⟨s, rfl, by simpa [RuleSet.isDynamic, hs] using h⟩

/-! ## The routines of the builder -/

/-- The ends of a dependency differ, and a loop at one of them is a loop of the program. -/
def Wired (p : Program) (e : Dependency) : Prop :=
  e.1 ≠ e.2 ∧ ∀ r, e.1 = .loop r ∨ e.2 = .loop r → r ∈ p.loops

theorem staticPart_total (hs : p.rules.split? x = some s) (root : String) :
    ∃ es, staticPart p root x = .ok es ∧ ∀ e ∈ es, Wired p e := by
  rw [staticPart, RuleSet.finalsOf, hs]
  refine ⟨_, rfl, fun e he => ?_⟩
  simp only [List.cons_append, List.mem_cons, List.mem_append, List.mem_map, List.not_mem_nil, or_false] at he
  rcases he with rfl | ⟨f, -, rfl⟩ | rfl <;> simp [Wired, Node.ofPart, graphics]

theorem dynamicSplit_total (hp : p.Consistent) (hs : p.rules.split? x = some s) (hdyn : s.step.isDynamic = true)
    (root : String) : ∃ es, dynamicSplit p root x = .ok es ∧ ∀ e ∈ es, Wired p e := by
  obtain ⟨hr, hstep, -⟩ := hp.coherent.split?_eq_some_iff.1 hs
  have hleader := hp.leader s.rule hr s.step (List.mem_of_getElem? hstep) hdyn
  rw [dynamicSplit, hs]
  dsimp only
  rw [if_pos hleader]
  have hmade : ∀ e ∈ (Node.rank root x, Node.ofPart root [x]) ::
      s.pair.map (fun d => (Node.ofPart root [x], Node.rank root d)), Wired p e := by
    intro e he
    simp only [List.mem_cons, List.mem_map] at he
    rcases he with rfl | ⟨f, -, rfl⟩ <;> simp [Wired, Node.ofPart]
  split
  · exact ⟨_, rfl, hmade⟩
  · refine ⟨_, rfl, fun e he => ?_⟩
    rcases List.mem_append.1 he with he | he
    · exact hmade e he
    · rw [List.mem_singleton.1 he]
      simp [Wired, Node.ofPart]

/-- The splits of a rank with a dynamic rule, from any split of the rule on. -/
theorem dynamicPart_total (hp : p.Consistent) (root : String) : ∀ (srcs : List String),
    (∀ x ∈ srcs, p.rules.isDynamic x = true) → ∃ es, dynamicPart p root srcs = .ok es ∧ ∀ e ∈ es, Wired p e
  | [], _ => ⟨[], rfl, by simp⟩
  | x :: srcs, h => by
    obtain ⟨s, hs, hdyn⟩ := exists_split_of_isDynamic (h x List.mem_cons_self)
    obtain ⟨es, hes, hw⟩ := dynamicSplit_total hp hs hdyn root
    obtain ⟨fs, hfs, hw'⟩ := dynamicPart_total hp root srcs fun y hy => h y (List.mem_cons_of_mem _ hy)
    refine ⟨es ++ fs, by rw [dynamicPart, hes, hfs], fun e he => ?_⟩
    rcases List.mem_append.1 he with he | he
    · exact hw e he
    · exact hw' e he

theorem isDynamic_of_mem_sources (hp : p.rules.Coherent) (hs : p.rules.split? x = some s) (h0 : s.index = 0)
    (hdyn : s.step.isDynamic = true) : ∀ y ∈ sources p x, p.rules.isDynamic y = true := by
  intro y hy
  obtain ⟨hr, -, -⟩ := hp.split?_eq_some_iff.1 hs
  rw [sources_eq hp hs h0, List.mem_map] at hy
  obtain ⟨s', hs', rfl⟩ := hy
  obtain ⟨hr', hstep'⟩ := Rule.mem_splits.1 hs'
  have hsplit : p.rules.split? s'.source = some s' := hp.split?_eq_some_iff.2 ⟨hr' ▸ hr, hr' ▸ hstep', rfl⟩
  simpa [RuleSet.isDynamic, hsplit, hp.isDynamic_eq hs hsplit hr'] using hdyn

/-- What a declared rank is when the loops begin: static splits have been made. -/
def opened (p : Program) (x : String) : List String := if p.rules.isStatic x then p.loopsFor x else [x]

theorem walkable_of_mem_opened (hp : p.Consistent) {y : String} (hx : p.Covered x) (hy : y ∈ opened p x) :
    Walkable p y := by
  unfold opened at hy
  split at hy
  · have hloop := hx y hy
    exact ⟨Program.covered_of_mem_loops hp hloop, by simp [RuleSet.isStatic, hp.loops_unsplit y hloop]⟩
  · rename_i hst
    rw [List.mem_singleton.1 hy]
    exact ⟨hx, by simpa using hst⟩

/-- **One rank of a tensor**: a static one gives way to its final ranks, and any other stays as it is. -/
theorem rankPart_cons (hp : p.Consistent) (root : String) {c : Cursor} {rest : List String}
    (h0 : ∀ s, p.rules.split? x = some s → s.index = 0) (hperm : c.pending.Perm (x :: rest)) :
    ∃ es d, (∀ e ∈ es, Wired p e) ∧ d.pending.Perm (opened p x ++ rest) ∧ ∀ rs, rankPart p root c (x :: rs) =
      (rankPart p root d rs).map (fun f => ((Node.tensor root, Node.rank root x) :: es ++ f.1, f.2)) := by
  by_cases hst : p.rules.isStatic x = true
  · obtain ⟨s, hs, -⟩ := exists_split_of_isStatic hst
    obtain ⟨es, hes, hw⟩ := staticPart_total hs root
    obtain ⟨d, hd, hdp⟩ := splitEach_total hp.coherent _ rfl hs hperm
    rw [h0 s hs, List.drop_zero, ← sources_eq hp.coherent hs (h0 s hs)] at hd
    refine ⟨es, d, hw, ?_, fun rs => ?_⟩
    · rwa [opened, if_pos hst, Program.loopsFor_of_split hs]
    · rw [rankPart, if_pos hst, hes, hd]
  · have hopen : opened p x = [x] := by rw [opened, if_neg hst]
    by_cases hdyn : p.rules.isDynamic x = true
    · obtain ⟨s, hs, hsd⟩ := exists_split_of_isDynamic hdyn
      obtain ⟨es, hes, hw⟩ := dynamicPart_total hp root (sources p x)
        (isDynamic_of_mem_sources hp.coherent hs (h0 s hs) hsd)
      refine ⟨es, c, hw, by rwa [hopen], fun rs => ?_⟩
      rw [rankPart, if_neg hst, if_pos hdyn, hes]
    · refine ⟨[], c, by simp, by rwa [hopen], fun rs => ?_⟩
      rw [rankPart, if_neg hst, if_neg hdyn]
      rfl

/-- **The ranks of a tensor** can always be gone through, and its pending ranks are then the opened ones. -/
theorem rankPart_total (hp : p.Consistent) (root : String) : ∀ (rs : List String) {c : Cursor} {rest : List String},
    (∀ x ∈ rs, ∀ s, p.rules.split? x = some s → s.index = 0) → c.pending.Perm (rs ++ rest) →
    ∃ es d, rankPart p root c rs = .ok (es, d) ∧ (∀ e ∈ es, Wired p e) ∧
      d.pending.Perm (rs.flatMap (opened p) ++ rest)
  | [], c, rest, _, hperm => ⟨[], c, rfl, by simp, hperm⟩
  | x :: rs, c, rest, h, hperm => by
    obtain ⟨es, d, hw, hdp, hcons⟩ := rankPart_cons hp root (h x List.mem_cons_self) hperm
    obtain ⟨fs, f, hf, hw', hfp⟩ := rankPart_total hp root rs (fun y hy => h y (List.mem_cons_of_mem _ hy))
      (hdp.trans (List.perm_append_comm_assoc _ rs rest))
    rw [hcons, hf]
    refine ⟨_, _, rfl, ?_, hfp.trans ?_⟩
    · simp only [List.cons_append, List.mem_cons, List.mem_append]
      rintro e (rfl | he | he)
      · simp [Wired]
      · exact hw e he
      · exact hw' e he
    · rw [List.flatMap_cons, List.append_assoc]
      exact List.perm_append_comm_assoc _ _ _

theorem wired_rootFiber (c : Cursor) : ∀ e ∈ rootFiber c, Wired p e := by
  intro e he
  simp only [rootFiber, List.mem_cons, List.mem_map] at he
  rcases he with rfl | rfl | ⟨r, -, rfl⟩ <;> simp [Wired, Node.ofSwizzle]

/-- **A split met on a walk** succeeds and leaves ranks that a walk can meet. -/
theorem meetSplit_total (hp : p.Consistent) {c : Cursor} (hc : ∀ y ∈ c.pending, Walkable p y) (hx : x ∈ c.pending)
    (hdyn : p.rules.isDynamic x = true) : ∃ es d, meetSplit p c x = .ok (es, d) ∧ (∀ e ∈ es, Wired p e) ∧
      ∀ y ∈ d.pending, Walkable p y := by
  obtain ⟨s, hs, -⟩ := exists_split_of_isDynamic hdyn
  obtain ⟨before, after, hpend, hsplit⟩ := Cursor.split_of_mem hx hs
  have hwalk := forall_mem_splice (hpend ▸ hc) ((hc x hx).pair hp.coherent hs)
  obtain ⟨ranks, hperm, happly⟩ := apply_total hp (c := c.withPending (before ++ s.pair ++ after))
    fun y hy => (hwalk y hy).1
  rw [meetSplit, hsplit]
  dsimp only
  rw [happly]
  refine ⟨_, _, rfl, fun e he => ?_, fun y hy => hwalk y (hperm.mem_iff.1 hy)⟩
  rcases List.mem_cons.1 he with rfl | he
  · simp [Wired]
  rcases List.mem_cons.1 he with rfl | he
  · simp [Wired, Node.ofPart]
  · exact wired_rootFiber _ e he

/-- **A walk through ranks that it can meet never fails.** -/
theorem walk_total (hp : p.Consistent) : ∀ (fuel : Nat) {c : Cursor}, (∀ y ∈ c.pending, Walkable p y) →
    ∃ es d, walk p fuel c = .ok (es, d) ∧ ∀ e ∈ es, Wired p e
  | 0, c, _ => ⟨[], c, rfl, by simp⟩
  | fuel + 1, c, hc => by
    unfold walk Cursor.pop?
    cases hpend : c.pending with
    | nil => exact ⟨[], c, rfl, by simp⟩
    | cons x rest =>
      have hx : x ∈ c.pending := by rw [hpend]; exact List.mem_cons_self
      dsimp only
      by_cases hdyn : p.rules.isDynamic x = true
      · obtain ⟨es, d, hd, hw, hwalk⟩ := meetSplit_total hp hc hx hdyn
        obtain ⟨fs, f, hf, hw'⟩ := walk_total hp fuel hwalk
        rw [if_pos hdyn, hd]
        dsimp only
        rw [hf]
        refine ⟨_, _, rfl, fun e he => ?_⟩
        rcases List.mem_append.1 he with he | he
        exacts [hw e he, hw' e he]
      · have hloop := (hc x hx).mem_loops (by simpa using hdyn)
        obtain ⟨fs, f, hf, hw'⟩ := walk_total hp fuel
          (c := { c with consumed := c.consumed ++ [x], pending := rest })
          fun y hy => hc y (hpend ▸ List.mem_cons_of_mem _ hy)
        rw [if_neg hdyn, hf]
        refine ⟨_, _, rfl, fun e he => ?_⟩
        rcases List.mem_append.1 he with he | he
        · simp only [meetLoop, List.mem_cons, List.not_mem_nil, or_false] at he
          rcases he with rfl | rfl <;> simp [Wired, hloop]
        · exact hw' e he

theorem walkAll_total (hp : p.Consistent) {c : Cursor} (hc : ∀ y ∈ c.pending, Walkable p y) :
    ∃ es d, walkAll p c = .ok (es, d) ∧ ∀ e ∈ es, Wired p e :=
  walk_total hp _ hc

/-- **The declared ranks of a tensor** become the opened ones, and a walk can meet each of them. -/
theorem rankPart_declared (hp : p.Consistent) {t : Tensor} (ht : t ∈ p.tensors) :
    ∃ es c, rankPart p t.root (p.cursor t) t.ranks = .ok (es, c) ∧ (∀ e ∈ es, Wired p e) ∧
      c.pending.Perm (t.ranks.flatMap (opened p)) ∧ ∀ y ∈ c.pending, Walkable p y := by
  have hpend : (p.cursor t).pending.Perm (t.ranks ++ []) := by
    rw [List.append_nil]
    exact List.Perm.refl _
  obtain ⟨es, c, hc, hw, hperm⟩ := rankPart_total hp t.root t.ranks (hp.index_declared t ht) hpend
  rw [List.append_nil] at hperm
  refine ⟨es, c, hc, hw, hperm, fun y hy => ?_⟩
  obtain ⟨x, hx, hy⟩ := List.mem_flatMap.1 (hperm.mem_iff.1 hy)
  exact walkable_of_mem_opened hp (hp.covered t ht x hx) hy

/-- **The dependencies of a tensor can always be listed.** -/
theorem tensorEdges_total (hp : p.Consistent) {t : Tensor} (ht : t ∈ p.tensors) :
    ∃ es, tensorEdges p t = .ok es ∧ ∀ e ∈ es, Wired p e := by
  obtain ⟨es, c, hc, hw, -, hwalk⟩ := rankPart_declared hp ht
  obtain ⟨ranks, hranks, happly⟩ := apply_total hp fun y hy => (hwalk y hy).1
  obtain ⟨fs, f, hf, hw'⟩ := walkAll_total hp (c := c.withPending ranks) fun y hy => hwalk y (hranks.mem_iff.1 hy)
  rw [tensorEdges, hc]
  dsimp only
  rw [happly]
  dsimp only
  rw [hf]
  refine ⟨_, rfl, fun e he => ?_⟩
  simp only [List.mem_append, List.mem_singleton] at he
  rcases he with ((he | he) | he) | rfl
  · exact hw e he
  · exact wired_rootFiber _ e he
  · exact hw' e he
  · simp [Wired, body]

theorem tensorsEdges_total (hp : p.Consistent) : ∀ (ts : List Tensor), (∀ t ∈ ts, t ∈ p.tensors) →
    ∃ es, tensorsEdges p ts = .ok es ∧ ∀ e ∈ es, Wired p e
  | [], _ => ⟨[], rfl, by simp⟩
  | t :: ts, h => by
    obtain ⟨es, hes, hw⟩ := tensorEdges_total hp (h t List.mem_cons_self)
    obtain ⟨fs, hfs, hw'⟩ := tensorsEdges_total hp ts fun u hu => h u (List.mem_cons_of_mem _ hu)
    rw [tensorsEdges, hes]
    dsimp only
    rw [hfs]
    refine ⟨_, rfl, fun e he => ?_⟩
    rcases List.mem_append.1 he with he | he
    exacts [hw e he, hw' e he]

theorem settledOutput_total (hp : p.Consistent) : ∃ c, settledOutput p = .ok c := by
  obtain ⟨ranks, -, happly⟩ := apply_total hp
    (c := (p.cursor p.outputTensor).withPending ((p.cursor p.outputTensor).pending.flatMap p.loopsFor)) (by
      intro y hy
      obtain ⟨x, hx, hy⟩ := List.mem_flatMap.1 hy
      exact Program.covered_of_mem_loops hp (hp.covered _ hp.output_mem x hx y hy))
  rw [settledOutput, Program.splitAll_eq hp.coherent]
  dsimp only
  rw [happly]
  exact ⟨_, rfl⟩

/-! ## The skeleton -/

theorem mem_of_mem_chain : ∀ {n : Node} {l : List Node}, ∀ e ∈ chain n l, e.1 ∈ n :: l ∧ e.2 ∈ n :: l
  | _, [], e, he => by cases he
  | n, m :: l, e, he => by
    rcases List.mem_cons.1 he with rfl | he
    · simp
    · obtain ⟨h1, h2⟩ := mem_of_mem_chain e he
      exact ⟨List.mem_cons_of_mem _ h1, List.mem_cons_of_mem _ h2⟩

theorem exists_mem_chain {m : Node} : ∀ {n : Node} {l : List Node}, m ∈ l → ∃ e ∈ chain n l, e.2 = m
  | n, k :: l, h => by
    rcases List.mem_cons.1 h with rfl | h
    · exact ⟨(n, m), List.mem_cons_self, rfl⟩
    · obtain ⟨e, he, hm⟩ := exists_mem_chain (n := k) h
      exact ⟨e, List.mem_cons_of_mem _ he, hm⟩

theorem rel_of_mem_chain {R : Node → Node → Prop} : ∀ {n : Node} {l : List Node}, (n :: l).Pairwise R →
    ∀ e ∈ chain n l, R e.1 e.2
  | _, [], _, e, he => by cases he
  | n, m :: l, h, e, he => by
    rw [List.pairwise_cons] at h
    rcases List.mem_cons.1 he with rfl | he
    · exact h.1 m List.mem_cons_self
    · exact rel_of_mem_chain h.2 e he

/-- **In a graph with the dependencies of a chain, every node of it reaches all that come later.** -/
theorem pairwise_path_of_chain {g : Graph Node} : ∀ {n : Node} {l : List Node},
    (∀ e ∈ chain n l, g.Edge e.1 e.2) → (n :: l).Pairwise g.Path
  | n, [], _ => List.pairwise_singleton _ n
  | n, m :: l, h => by
    have hnm : g.Path n m := Graph.Edge.path (h (n, m) List.mem_cons_self)
    have htail := pairwise_path_of_chain fun e he => h e (List.mem_cons_of_mem _ he)
    refine List.pairwise_cons.2 ⟨fun k hk => ?_, htail⟩
    rcases List.mem_cons.1 hk with rfl | hk
    · exact hnm
    · exact hnm.trans ((List.pairwise_cons.1 htail).1 k hk)

theorem wired_skeleton (hp : p.Consistent) : ∀ e ∈ skeleton p, Wired p e := by
  have hnd : (output :: (graphics :: startLoop :: p.loops.map Node.loop ++ [body, footer])).Nodup := by
    have hloops : (p.loops.map Node.loop).Nodup := hp.nodup_loops.map fun a b h => Node.loop.inj h
    simp [List.nodup_append, hloops, output, graphics, startLoop, body, footer, Anchor.output, Anchor.graphics,
      Anchor.startLoop, Anchor.body, Anchor.footer]
  have hloop : ∀ r, Node.loop r ∈ output :: (graphics :: startLoop :: p.loops.map Node.loop ++ [body, footer]) →
      r ∈ p.loops := by
    intro r hr
    simpa [output, graphics, startLoop, body, footer] using hr
  intro e he
  refine ⟨rel_of_mem_chain hnd e he, fun r hr => hloop r ?_⟩
  obtain ⟨h1, h2⟩ := mem_of_mem_chain e he
  rcases hr with hr | hr
  · exact hr ▸ h1
  · exact hr ▸ h2

/-- **The dependencies of a consistent program can always be listed**, and the skeleton is among them. -/
theorem edges_total (hp : p.Consistent) :
    ∃ es, edges p = .ok es ∧ (∀ e ∈ es, Wired p e) ∧ ∀ e ∈ skeleton p, e ∈ es := by
  obtain ⟨out, hout⟩ := settledOutput_total hp
  obtain ⟨es, hes, hw⟩ := tensorsEdges_total hp p.tensors fun t ht => ht
  rw [edges, hout]
  dsimp only
  rw [hes]
  refine ⟨_, rfl, fun e he => ?_, fun e he => List.mem_append_left _ he⟩
  rcases List.mem_append.1 he with he | he
  · exact wired_skeleton hp e he
  rcases List.mem_cons.1 he with rfl | he
  · simp [Wired, output]
  · exact hw e he

end Wiring
end LoopNest
