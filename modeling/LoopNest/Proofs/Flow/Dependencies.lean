import LoopNest.Proofs.Flow.Existence
import LoopNest.Proofs.Flow.Walking
/-!
# Proofs.Flow.Dependencies — which dependencies a program has

The builder lists dependencies while it goes through the ranks of a tensor and walks through the loops.  `Depends` says
which ones these are, in terms of the cursors that the walk comes to: where it meets a split (`Meets`), where it enters
a loop (`Enters`) and where the root of the tensor is taken (`Takes`).  The edges of the graph of a program are those of
the skeleton, the one from the output to its tensor, and those of `Depends` (`edge_iff`).
-/
namespace LoopNest
namespace Wiring

variable {p : Program} {t : Tensor} {x y root : String} {s : Split} {c d f : Cursor} {es fs : List Dependency}
  {a b : Node} {e : Dependency}

/-! ## Where a walk comes to -/

/-- **A cursor that the walk of a tensor comes to.** -/
def Stands (p : Program) (t : Tensor) (c : Cursor) : Prop :=
  ∃ start fuel es, Opens p t start ∧ walk p fuel start = .ok (es, c)

/-- **The walk meets a rank that a dynamic step splits**, at `c`, and goes on from `d`. -/
def Meets (p : Program) (t : Tensor) (x : String) (c d : Cursor) : Prop :=
  Stands p t c ∧ c.peek? = some x ∧ p.rules.isDynamic x = true ∧ ∃ es, meetSplit p c x = .ok (es, d)

/-- The walk enters the loop over a rank at `c`, and goes on from `d`. -/
def Enters (p : Program) (t : Tensor) (x : String) (c d : Cursor) : Prop :=
  Stands p t c ∧ c.pop? = some (x, d) ∧ p.rules.isDynamic x = false

/-- The root of the tensor is taken at the start of its walk and after each split that the walk meets. -/
def Takes (p : Program) (t : Tensor) (c : Cursor) : Prop := Opens p t c ∨ ∃ x b, Meets p t x b c

theorem stands_iff : Stands p t c ↔ ∃ start es, Opens p t start ∧ Trip p start es c := by
  constructor
  · rintro ⟨start, fuel, es, hopens, hwalk⟩
    exact ⟨start, es, hopens, trip_of_walk hwalk⟩
  · rintro ⟨start, es, hopens, htrip⟩
    obtain ⟨fuel, hwalk⟩ := htrip.exists_walk
    exact ⟨start, fuel, es, hopens, hwalk⟩

theorem Opens.stands (h : Opens p t c) : Stands p t c := stands_iff.2 ⟨c, [], h, .stay c⟩

theorem Opens.unique (h : Opens p t c) (h' : Opens p t d) : c = d := by
  obtain ⟨es, b, hb, hc⟩ := h
  obtain ⟨es', b', hb', hd⟩ := h'
  rw [hb] at hb'
  cases hb'
  rw [hc] at hd
  cases hd
  rfl

theorem Stands.move (h : Stands p t c) (hm : Move p c es d) : Stands p t d := by
  obtain ⟨start, fs, hopens, htrip⟩ := stands_iff.1 h
  exact stands_iff.2 ⟨start, _, hopens, htrip.trans (.single hm)⟩

theorem Stands.onTrack (hp : p.Named) (ht : t ∈ p.tensors) (h : Stands p t c) : OnTrack p t c := by
  obtain ⟨start, es, hopens, htrip⟩ := stands_iff.1 h
  exact (hopens.onTrack hp.toConsistent ht).1.trip hp ht htrip

/-- **What holds at the start of a walk and is kept by every move holds wherever the walk comes to.** -/
theorem Stands.induction {P : Cursor → Prop} (hstart : ∀ c, Opens p t c → P c)
    (hmove : ∀ c es d, Stands p t c → P c → Move p c es d → P d) (h : Stands p t c) : P c := by
  obtain ⟨start, es, hopens, htrip⟩ := stands_iff.1 h
  have hkeep : ∀ {b es c}, Trip p b es c → Stands p t b → P b → P c := by
    intro b es c htrip
    induction htrip with
    | stay => exact fun _ h => h
    | go hm _ ih => exact fun hb hP => ih (hb.move hm) (hmove _ _ _ hb hP hm)
  exact hkeep htrip hopens.stands (hstart start hopens)

theorem Meets.exists_pending (h : Meets p t x c d) : ∃ rest, c.pending = x :: rest :=
  List.head?_eq_some_iff.1 h.2.1

theorem Enters.move (h : Enters p t x c d) : Move p c (meetLoop c d x) d := .loop h.2.1 h.2.2

theorem Enters.mem_loops (hp : p.Named) (ht : t ∈ p.tensors) (h : Enters p t x c d) : x ∈ p.loops := by
  obtain ⟨rest, hpend, -⟩ := Cursor.pop?_eq_some.1 h.2.1
  have hwalk := (h.1.onTrack hp ht).walkable hp.toConsistent ht x (by rw [hpend]; exact List.mem_cons_self)
  exact hwalk.mem_loops h.2.2

theorem Meets.exists_move (h : Meets p t x c d) : ∃ es, meetSplit p c x = .ok (es, d) ∧ Move p c es d := by
  obtain ⟨rest, hpend⟩ := h.exists_pending
  obtain ⟨-, -, hdyn, es, hmeet⟩ := h
  exact ⟨es, hmeet, .split hpend hdyn hmeet⟩

/-- **Every move of a walk enters a loop or meets a split.** -/
theorem Stands.enters_or_meets (hc : Stands p t c) (h : Move p c es d) :
    (∃ x, Enters p t x c d) ∨ ∃ x, Meets p t x c d := by
  cases h with
  | @loop x _ hpop hdyn => exact .inl ⟨x, hc, hpop, hdyn⟩
  | @split x rest _ _ hpend hdyn hmeet =>
    exact .inr ⟨x, hc, by rw [Cursor.peek?, hpend]; rfl, hdyn, es, hmeet⟩

theorem Takes.stands (h : Takes p t c) : Stands p t c := by
  rcases h with h | ⟨x, b, h⟩
  · exact h.stands
  · obtain ⟨es, -, hm⟩ := h.exists_move
    exact h.1.move hm

/-- **What a walk does where it meets a split.** -/
theorem Meets.exists_split (hp : p.Named) (ht : t ∈ p.tensors) (h : Meets p t x c d) :
    ∃ s rest, p.rules.split? x = some s ∧ s.step.isDynamic = true ∧ c.pending = x :: rest ∧
      d.pending.Perm (s.pair ++ rest) ∧ d.pending.Pairwise (fun a b => p.place a ≤ p.place b) ∧
      d = (c.withPending d.pending).reroot ∧
      meetSplit p c x = .ok ((.fiber c.fiber, .fromFiber t.root x) ::
        (.fromFiber t.root x, .ofPart t.root [x]) :: rootFiber d, d) := by
  have htrack := h.1.onTrack hp ht
  obtain ⟨s, hs, hdyn⟩ := exists_split_of_isDynamic h.2.2.1
  obtain ⟨rest, hpend⟩ := h.exists_pending
  obtain ⟨es, hmeet, -⟩ := h.exists_move
  obtain ⟨ranks, hperm, hsorted, heq⟩ := meetSplit_eq hp.toConsistent (htrack.covered hp.toConsistent ht) hpend hs
  have hd : d = (c.withPending ranks).reroot := by
    rw [hmeet] at heq
    cases heq
    rfl
  subst hd
  exact ⟨s, rest, hs, hdyn, hpend, hperm, hsorted, rfl, htrack.root ▸ heq⟩

/-- **From wherever a walk comes to, it goes on to the end.** -/
theorem Stands.exists_end (hp : p.Named) (ht : t ∈ p.tensors) (h : Stands p t c) :
    ∃ es d, Trip p c es d ∧ d.pending = [] := by
  obtain ⟨es, d, hwalk, hnil⟩ := (h.onTrack hp ht).walkAll_ends hp ht
  exact ⟨es, d, trip_of_walk hwalk, hnil⟩

/-! ## The dependencies of a tensor -/

/-- The dependencies of a split inside the loops. -/
inductive SplitDepends (root x : String) (s : Split) : Node → Node → Prop where
  | source : SplitDepends root x s (.rank root x) (.ofPart root [x])
  | made {y : String} : y ∈ s.pair → SplitDepends root x s (.ofPart root [x]) (.rank root y)
  | led : s.step.leader ≠ root →
      SplitDepends root x s (.fiber (fiberName s.step.leader s.outer)) (.ofPart root [x])

/-- The dependencies of a declared rank. -/
inductive RankDepends (p : Program) (root x : String) : Node → Node → Prop where
  | declared : RankDepends p root x (.tensor root) (.rank root x)
  | source : p.rules.isStatic x = true → RankDepends p root x (.rank root x) (.ofPart root [x])
  | final {f : String} : p.rules.isStatic x = true → f ∈ p.rules.finals x →
      RankDepends p root x (.ofPart root [x]) (.rank root f)
  | graphics : p.rules.isStatic x = true → RankDepends p root x (.ofPart root [x]) graphics
  | split {y : String} {s : Split} {a b : Node} : p.rules.split? y = some s → s.step.isDynamic = true →
      s.rule.rank = x → SplitDepends root y s a b → RankDepends p root x a b

/-- **The dependencies of a tensor.** -/
inductive Depends (p : Program) (t : Tensor) : Node → Node → Prop where
  | rank {x : String} {a b : Node} : x ∈ t.ranks → RankDepends p t.root x a b → Depends p t a b
  | tensorTaken {c : Cursor} : Takes p t c → Depends p t (.tensor t.root) (.ofSwizzle t.root c.pending)
  | rankTaken {x : String} {c : Cursor} : Takes p t c → x ∈ c.pending →
      Depends p t (.rank t.root x) (.ofSwizzle t.root c.pending)
  | root {c : Cursor} : Takes p t c → Depends p t (.ofSwizzle t.root c.pending) (.fiber c.fiber)
  | remade {x : String} {c d : Cursor} : Meets p t x c d → Depends p t (.fiber c.fiber) (.fromFiber t.root x)
  | cut {x : String} {c d : Cursor} : Meets p t x c d → Depends p t (.fromFiber t.root x) (.ofPart t.root [x])
  | enter {x : String} {c d : Cursor} : Enters p t x c d → Depends p t (.fiber c.fiber) (.loop x)
  | next {x : String} {c d : Cursor} : Enters p t x c d → Depends p t (.loop x) (.fiber d.fiber)
  | finish {c : Cursor} : Stands p t c → c.pending = [] → Depends p t (.fiber c.fiber) body

/-! ## What the builder lists for a rank -/

theorem mem_staticPart (hst : p.rules.isStatic x = true) (h : staticPart p root x = .ok es) :
    e ∈ es ↔ e = (.rank root x, .ofPart root [x]) ∨ (∃ f ∈ p.rules.finals x, e = (.ofPart root [x], .rank root f)) ∨
      e = (.ofPart root [x], graphics) := by
  obtain ⟨s, hs, -⟩ := exists_split_of_isStatic hst
  rw [staticPart, RuleSet.finalsOf, hs] at h
  cases h
  simp only [RuleSet.finals, hs, Option.map_some, Option.getD_some, List.cons_append, List.mem_cons, List.mem_append,
    List.mem_map, List.not_mem_nil, or_false, eq_comm]

theorem mem_dynamicSplit (h : dynamicSplit p root x = .ok es) :
    ∃ s, p.rules.split? x = some s ∧ ∀ e, e ∈ es ↔ SplitDepends root x s e.1 e.2 := by
  have hiff : ∀ {s : Split} {e : Dependency}, SplitDepends root x s e.1 e.2 ↔ e = (.rank root x, .ofPart root [x]) ∨
      (∃ y ∈ s.pair, e = (.ofPart root [x], .rank root y)) ∨
      (s.step.leader ≠ root ∧ e = (.fiber (fiberName s.step.leader s.outer), .ofPart root [x])) := by
    rintro s ⟨a, b⟩
    constructor
    · rintro (_ | hy | hl)
      exacts [.inl rfl, .inr (.inl ⟨_, hy, rfl⟩), .inr (.inr ⟨hl, rfl⟩)]
    · rintro (h | ⟨y, hy, h⟩ | ⟨hl, h⟩) <;> cases h
      exacts [.source, .made hy, .led hl]
  rw [dynamicSplit] at h
  cases hs : p.rules.split? x with
  | none => rw [hs] at h; cases h
  | some s =>
    rw [hs] at h
    refine ⟨s, rfl, fun e => ?_⟩
    rw [hiff]
    dsimp only at h
    split at h
    · rename_i hl
      cases h
      simp only [List.mem_cons, List.mem_map, hl, ne_eq, not_true_eq_false, false_and, or_false, eq_comm]
    · rename_i hl
      split at h
      · cases h
        simp only [List.cons_append, List.mem_cons, List.mem_append, List.mem_map, List.not_mem_nil, or_false, ne_eq, hl,
          not_false_eq_true, true_and, eq_comm]
      · cases h

theorem mem_dynamicPart : ∀ {srcs : List String} {es : List Dependency}, dynamicPart p root srcs = .ok es →
    ∀ e, e ∈ es ↔ ∃ y ∈ srcs, ∃ s, p.rules.split? y = some s ∧ SplitDepends root y s e.1 e.2
  | [], _, h, e => by cases h; simp
  | y :: srcs, _, h, e => by
    rw [dynamicPart] at h
    split at h
    · cases h
    rename_i es hes
    split at h
    · cases h
    rename_i fs hfs
    cases h
    obtain ⟨s, hs, hmem⟩ := mem_dynamicSplit hes
    rw [List.mem_append, hmem, mem_dynamicPart hfs]
    simp only [List.mem_cons, exists_eq_or_imp, hs, Option.some.injEq, exists_eq_left']

theorem mem_sources (hp : p.rules.Coherent) (hs : p.rules.split? x = some s) (h0 : s.index = 0) :
    y ∈ sources p x ↔ ∃ s', p.rules.split? y = some s' ∧ s'.rule.rank = x := by
  obtain ⟨hr, -, hsrc⟩ := hp.split?_eq_some_iff.1 hs
  have hrank : s.rule.rank = x := by rw [← hsrc, Split.source, if_pos h0]
  rw [sources_eq hp hs h0, List.mem_map]
  constructor
  · rintro ⟨s', hs', rfl⟩
    obtain ⟨hr', hstep'⟩ := Rule.mem_splits.1 hs'
    exact ⟨s', hp.split?_eq_some_iff.2 ⟨hr' ▸ hr, hr' ▸ hstep', rfl⟩, hr' ▸ hrank⟩
  · rintro ⟨s', hs', hrank'⟩
    obtain ⟨-, hstep', hsrc'⟩ := hp.split?_eq_some_iff.1 hs'
    obtain ⟨s'', hs'', hr'', -⟩ := hp.split?_rank hs'
    rw [hrank', hs] at hs''
    cases hs''
    exact ⟨s', Rule.mem_splits.2 ⟨hr''.symm, hr'' ▸ hstep'⟩, hsrc'⟩

/-- **What is listed for one declared rank.** -/
theorem rankDepends_iff (hp : p.rules.Coherent) (h0 : ∀ s, p.rules.split? x = some s → s.index = 0)
    (h : if p.rules.isStatic x then staticPart p root x = .ok es
      else if p.rules.isDynamic x then dynamicPart p root (sources p x) = .ok es else es = []) :
    RankDepends p root x e.1 e.2 ↔ e = (.tensor root, .rank root x) ∨ e ∈ es := by
  obtain ⟨a, b⟩ := e
  have hdynamic : ∀ {y s}, p.rules.split? y = some s → s.step.isDynamic = true → s.rule.rank = x →
      p.rules.isDynamic x = true := fun hs hdyn hrank => by rw [← hrank, hp.isDynamic_rank hs, hdyn]
  by_cases hst : p.rules.isStatic x = true
  · rw [if_pos hst] at h
    rw [mem_staticPart hst h]
    constructor
    · rintro (_ | _ | ⟨-, hf⟩ | _ | ⟨hs, hdyn, hrank, -⟩)
      · exact .inl rfl
      · exact .inr (.inl rfl)
      · exact .inr (.inr (.inl ⟨_, hf, rfl⟩))
      · exact .inr (.inr (.inr rfl))
      · rw [RuleSet.isStatic_of_isDynamic (hdynamic hs hdyn hrank)] at hst
        cases hst
    · rintro (h | h | ⟨f, hf, h⟩ | h) <;> cases h
      exacts [.declared, .source hst, .final hst hf, .graphics hst]
  rw [if_neg hst] at h
  have hnone : RankDepends p root x a b ↔ (a, b) = (.tensor root, .rank root x) ∨
      ∃ y s, p.rules.split? y = some s ∧ s.step.isDynamic = true ∧ s.rule.rank = x ∧ SplitDepends root y s a b := by
    constructor
    · rintro (_ | h | ⟨h, -⟩ | h | ⟨hs, hdyn, hrank, hd⟩)
      exacts [.inl rfl, absurd h hst, absurd h hst, absurd h hst, .inr ⟨_, _, hs, hdyn, hrank, hd⟩]
    · rintro (h | ⟨y, s, hs, hdyn, hrank, hd⟩)
      · cases h; exact .declared
      · exact .split hs hdyn hrank hd
  rw [hnone]
  refine or_congr_right ?_
  by_cases hdyn : p.rules.isDynamic x = true
  · rw [if_pos hdyn] at h
    obtain ⟨s, hs, hsd⟩ := exists_split_of_isDynamic hdyn
    rw [mem_dynamicPart h]
    constructor
    · rintro ⟨y, s', hs', -, hrank, hd⟩
      exact ⟨y, (mem_sources hp hs (h0 s hs)).2 ⟨s', hs', hrank⟩, s', hs', hd⟩
    · rintro ⟨y, hy, s', hs', hd⟩
      obtain ⟨s'', hs'', hrank⟩ := (mem_sources hp hs (h0 s hs)).1 hy
      rw [hs'] at hs''
      cases hs''
      exact ⟨y, s', hs', by rw [← hp.isDynamic_rank hs', hrank, hdyn], hrank, hd⟩
  · rw [if_neg hdyn] at h
    rw [h]
    constructor
    · rintro ⟨y, s, hs, hsd, hrank, -⟩
      exact absurd (hdynamic hs hsd hrank) hdyn
    · exact fun h => absurd h List.not_mem_nil

theorem mem_rankPart (hp : p.rules.Coherent) : ∀ {rs : List String} {c d : Cursor} {es : List Dependency},
    (∀ x ∈ rs, ∀ s, p.rules.split? x = some s → s.index = 0) → rankPart p root c rs = .ok (es, d) →
    ∀ e, e ∈ es ↔ ∃ x ∈ rs, RankDepends p root x e.1 e.2
  | [], _, _, _, _, h, e => by cases h; simp
  | x :: rs, c, d, es, h0, h, e => by
    obtain ⟨here, b, fs, hfs, rfl, -, hhere⟩ := exists_of_rankPart_cons h
    have ih := mem_rankPart hp (fun y hy => h0 y (List.mem_cons_of_mem _ hy)) hfs
    simp only [List.cons_append, List.mem_cons, List.mem_append, exists_eq_or_imp, ih e,
      rankDepends_iff hp (h0 x List.mem_cons_self) hhere, or_assoc]

/-! ## What the builder lists on a walk -/

theorem mem_rootFiber : e ∈ rootFiber c ↔ e = (.tensor c.root, .ofSwizzle c.root c.pending) ∨
    e = (.ofSwizzle c.root c.pending, .fiber c.fiber) ∨
    ∃ x ∈ c.pending, e = (.rank c.root x, .ofSwizzle c.root c.pending) := by
  simp only [rootFiber, List.mem_cons, List.mem_map, eq_comm]

/-- **A trip to the end lists what the moves along it list.** -/
theorem Trip.mem_iff (h : Trip p c es f) (hnil : f.pending = []) :
    e ∈ es ↔ ∃ fs b gs d, Trip p c fs b ∧ Move p b gs d ∧ e ∈ gs := by
  constructor
  · intro he
    clear hnil
    induction h with
    | stay => cases he
    | @go c d _ es fs hm _ ih =>
      rcases List.mem_append.1 he with he | he
      · exact ⟨[], c, es, d, .stay c, hm, he⟩
      · obtain ⟨gs, b, hs, k, htrip, hm', he⟩ := ih he
        exact ⟨es ++ gs, b, hs, k, .go hm htrip, hm', he⟩
  · rintro ⟨fs, b, gs, d, htrip, hm, he⟩
    obtain ⟨hs, -, rfl⟩ := (htrip.trans (.single hm)).rest h hnil
    exact List.mem_append_left _ (List.mem_append_right _ he)

theorem Opens.mem_walked (hopens : Opens p t c) (h : Trip p c es f) (hnil : f.pending = []) :
    e ∈ es ↔ ∃ b gs d, Stands p t b ∧ Move p b gs d ∧ e ∈ gs := by
  rw [h.mem_iff hnil]
  constructor
  · rintro ⟨fs, b, gs, d, htrip, hm, he⟩
    exact ⟨b, gs, d, stands_iff.2 ⟨c, fs, hopens, htrip⟩, hm, he⟩
  · rintro ⟨b, gs, d, hb, hm, he⟩
    obtain ⟨start, fs, hstart, htrip⟩ := stands_iff.1 hb
    rw [hstart.unique hopens] at htrip
    exact ⟨fs, b, gs, d, htrip, hm, he⟩

/-- **What is listed where a walk meets a split.** -/
theorem Meets.mem_listed (hp : p.Named) (ht : t ∈ p.tensors) (h : Meets p t x c d)
    (hmeet : meetSplit p c x = .ok (es, d)) : e ∈ es ↔ e = (.fiber c.fiber, .fromFiber t.root x) ∨
      e = (.fromFiber t.root x, .ofPart t.root [x]) ∨ e ∈ rootFiber d := by
  obtain ⟨-, -, -, -, -, -, -, -, hmeet'⟩ := h.exists_split hp ht
  rw [hmeet] at hmeet'
  cases hmeet'
  rw [List.mem_cons, List.mem_cons]

/-! ## The edges of the graph -/

theorem exists_of_tensorEdges (hp : p.Named) (ht : t ∈ p.tensors) (h : tensorEdges p t = .ok es) :
    ∃ ranks opened start walked last, rankPart p t.root (p.cursor t) t.ranks = .ok (ranks, opened) ∧
      Opens p t start ∧ Trip p start walked last ∧ last.pending = [] ∧
      es = ranks ++ rootFiber start ++ walked ++ [(.fiber last.fiber, body)] := by
  rw [tensorEdges] at h
  split at h
  · cases h
  rename_i ranks opened hranks
  split at h
  · cases h
  rename_i start hstart
  have hopens : Opens p t start := ⟨ranks, opened, hranks, hstart⟩
  obtain ⟨walked, last, hwalk, hnil⟩ := (hopens.stands.onTrack hp ht).walkAll_ends hp ht
  rw [hwalk] at h
  cases h
  exact ⟨ranks, opened, start, walked, last, hranks, hopens, trip_of_walk hwalk, hnil, rfl⟩

/-- **The dependencies that the builder lists for a tensor.** -/
theorem mem_tensorEdges (hp : p.Named) (ht : t ∈ p.tensors) (h : tensorEdges p t = .ok es) :
    (a, b) ∈ es ↔ Depends p t a b := by
  obtain ⟨ranks, opened, start, walked, last, hranks, hopens, htrip, hnil, rfl⟩ := exists_of_tensorEdges hp ht h
  have hrank := mem_rankPart hp.coherent (hp.index_declared t ht) hranks
  have hwalked : ∀ {e}, e ∈ walked ↔ _ := hopens.mem_walked htrip hnil
  have hlast : Stands p t last := stands_iff.2 ⟨start, walked, hopens, htrip⟩
  have hroot : ∀ {c}, Takes p t c → c.root = t.root := fun h => (h.stands.onTrack hp ht).root
  simp only [List.mem_append, List.mem_singleton]
  constructor
  · have htaken : ∀ {c}, Takes p t c → (a, b) ∈ rootFiber c → Depends p t a b := by
      intro c hc he
      rw [mem_rootFiber, hroot hc] at he
      rcases he with he | he | ⟨x, hx, he⟩ <;> cases he
      exacts [.tensorTaken hc, .root hc, .rankTaken hc hx]
    rintro (((he | he) | he) | he)
    · obtain ⟨x, hx, hd⟩ := (hrank _).1 he
      exact .rank hx hd
    · exact htaken (.inl hopens) he
    · obtain ⟨c, gs, d, hc, hm, he⟩ := hwalked.1 he
      rcases hc.enters_or_meets hm with ⟨x, hx⟩ | ⟨x, hx⟩
      · rw [(hm.deterministic hx.move).1, meetLoop, List.mem_cons, List.mem_singleton] at he
        rcases he with he | he <;> cases he
        exacts [.enter hx, .next hx]
      · obtain ⟨es, hmeet, hm'⟩ := hx.exists_move
        rw [(hm.deterministic hm').1, hx.mem_listed hp ht hmeet] at he
        rcases he with he | he | he
        · cases he; exact .remade hx
        · cases he; exact .cut hx
        · exact htaken (.inr ⟨x, c, hx⟩) he
    · cases he
      exact .finish hlast hnil
  · have hmoved : ∀ {x c d}, Meets p t x c d → ∀ {e}, (e = (.fiber c.fiber, .fromFiber t.root x) ∨
        e = (.fromFiber t.root x, .ofPart t.root [x]) ∨ e ∈ rootFiber d) → e ∈ walked := by
      intro x c d hx e he
      obtain ⟨es, hmeet, hm⟩ := hx.exists_move
      exact hwalked.2 ⟨c, es, d, hx.1, hm, (hx.mem_listed hp ht hmeet).2 he⟩
    have hentered : ∀ {x c d}, Enters p t x c d → ∀ {e}, e ∈ meetLoop c d x → e ∈ walked :=
      fun {_ c d} hx _ he => hwalked.2 ⟨c, _, d, hx.1, hx.move, he⟩
    have htaken : ∀ {c e}, Takes p t c → e ∈ rootFiber c → (e ∈ ranks ∨ e ∈ rootFiber start) ∨ e ∈ walked := by
      rintro c e (hc | ⟨x, b, hx⟩) he
      · exact .inl (.inr (hopens.unique hc ▸ he))
      · exact .inr (hmoved hx (.inr (.inr he)))
    intro hd
    cases hd with
    | rank hx hd => exact .inl (.inl (.inl ((hrank _).2 ⟨_, hx, hd⟩)))
    | tensorTaken hc => exact .inl (htaken hc (mem_rootFiber.2 (.inl (by rw [hroot hc]))))
    | root hc => exact .inl (htaken hc (mem_rootFiber.2 (.inr (.inl (by rw [hroot hc])))))
    | rankTaken hc hx => exact .inl (htaken hc (mem_rootFiber.2 (.inr (.inr ⟨_, hx, by rw [hroot hc]⟩))))
    | remade hx => exact .inl (.inr (hmoved hx (.inl rfl)))
    | cut hx => exact .inl (.inr (hmoved hx (.inr (.inl rfl))))
    | enter hx => exact .inl (.inr (hentered hx List.mem_cons_self))
    | next hx => exact .inl (.inr (hentered hx (List.mem_cons_of_mem _ List.mem_cons_self)))
    | finish hc hnil' =>
      obtain ⟨start', fs, hstart', htrip'⟩ := stands_iff.1 hc
      rw [hstart'.unique hopens] at htrip'
      obtain ⟨gs, hend, -⟩ := htrip'.rest htrip hnil
      cases hend with
      | stay => exact .inr rfl
      | go hm _ => exact absurd hnil' hm.pending_ne_nil

theorem mem_tensorsEdges (hp : p.Named) : ∀ {ts : List Tensor} {es : List Dependency}, (∀ t ∈ ts, t ∈ p.tensors) →
    tensorsEdges p ts = .ok es → ∀ a b, (a, b) ∈ es ↔ ∃ t ∈ ts, Depends p t a b
  | [], _, _, h, _, _ => by cases h; simp
  | t :: ts, _, hts, h, a, b => by
    rw [tensorsEdges] at h
    split at h
    · cases h
    rename_i es hes
    cases hfs : tensorsEdges p ts with
    | error e => rw [hfs] at h; cases h
    | ok fs =>
      rw [hfs] at h
      cases h
      have ih := mem_tensorsEdges hp (fun u hu => hts u (List.mem_cons_of_mem _ hu)) hfs
      simp only [List.mem_append, List.mem_cons, exists_eq_or_imp, ih,
        mem_tensorEdges hp (hts t List.mem_cons_self) hes]

theorem root_outputTensor (p : Program) : p.outputTensor.root = p.output := by
  rw [Program.outputTensor]
  cases h : p.tensor? p.output with
  | none => rfl
  | some t => simpa using List.find?_some h

theorem root_settledOutput (hp : p.Consistent) (h : settledOutput p = .ok c) : c.root = p.output := by
  rw [settledOutput, Program.splitAll_eq hp.coherent] at h
  unfold LoopOrder.apply at h
  dsimp only at h
  split at h <;> cases h
  exact root_outputTensor p

/-- **The edges of the graph of a program.** -/
theorem edge_iff (hp : p.Named) {raw : Graph Node} (h : p.graph = .ok raw) :
    raw.Edge a b ↔ (a, b) ∈ skeleton p ∨ (a, b) = (output, .tensor p.output) ∨ ∃ t ∈ p.tensors, Depends p t a b := by
  rw [Program.graph, edges] at h
  cases hout : settledOutput p with
  | error e => rw [hout] at h; cases h
  | ok out =>
    cases hes : tensorsEdges p p.tensors with
    | error e => rw [hout, hes] at h; cases h
    | ok es =>
      rw [hout, hes] at h
      cases h
      rw [Program.edge_graph, List.mem_append, List.mem_cons, root_settledOutput hp.toConsistent hout,
        mem_tensorsEdges hp (fun t ht => ht) hes]

end Wiring
end LoopNest
