import Mathlib
import LoopNest.Proofs.Graph.Reach
/-!
# Proofs.Graph.Searching — the order and the end of the searches

The breadth-first search works in rings: the nodes that wait are those of one ring, then those of the next, and all that
is nearer was met (`Ring`).  So a node is met when its distance is that of the ring, and the descendants come out by
distance (`Ring.sweep`).  Both searches are also seen here as loops without a bound of their own, the one over a queue,
the other over a stack that tells when its target comes up.  A round takes one node off those that wait and, when it is
met for the first time, adds the ends of its edges.  So what waits and the edges that were not looked at become one less
in every round, whatever the cycles (`Search.load`), and both loops come to an end (`searches_exact`).
-/
namespace LoopNest
namespace Graph

variable {α : Type} {g : Graph α} {a b : α} {k : Nat}

/-! ## Distances -/

/-- **A path of `k` edges leads from `a` to another node**, or back to `a`; there is at least one edge. -/
inductive Leads (g : Graph α) (a : α) : Nat → α → Prop where
  | edge {b : α} : g.Edge a b → Leads g a 1 b
  | next {k : Nat} {b c : α} : Leads g a k b → g.Edge b c → Leads g a (k + 1) c

theorem Leads.pos (h : g.Leads a k b) : 0 < k := by
  cases h <;> omega

theorem path_iff_leads : g.Path a b ↔ ∃ k, g.Leads a k b := by
  constructor
  · intro h
    induction h with
    | single h => exact ⟨1, .edge h⟩
    | tail _ h ih =>
      obtain ⟨k, hk⟩ := ih
      exact ⟨k + 1, .next hk h⟩
  · rintro ⟨k, h⟩
    induction h with
    | edge h => exact h.path
    | next _ h ih => exact ih.trans h.path

/-- **The number of edges of a shortest path from `a` to `b`**; from a node to itself, of a shortest cycle. -/
noncomputable def distance (g : Graph α) (a b : α) : Nat := sInf {k | g.Leads a k b}

theorem isLeast_distance (h : g.Path a b) : IsLeast {k | g.Leads a k b} (g.distance a b) := by
  obtain ⟨k, hk⟩ := path_iff_leads.1 h
  exact ⟨Nat.sInf_mem ⟨k, hk⟩, fun j hj => Nat.sInf_le hj⟩

theorem Leads.distance_eq (h : g.Leads a k b) (hleast : ∀ j, j < k → ¬ g.Leads a j b) : g.distance a b = k := by
  have hdist := isLeast_distance (path_iff_leads.2 ⟨k, h⟩)
  refine Nat.le_antisymm (hdist.2 h) ?_
  by_contra hlt
  exact hleast _ (Nat.lt_of_not_le hlt) hdist.1

/-! ## Rings -/

section

variable {n : α} {seen here beyond : List α}

/-- **The breadth-first search at the ring `k`**: of the nodes that wait, those in `here` are `k` edges away and those
in `beyond` one more.  What is nearer was met, and what is as near was met or waits. -/
structure Ring (g : Graph α) (a : α) (k : Nat) (seen here beyond : List α) : Prop where
  pos : 0 < k
  leads_here : ∀ x ∈ here, g.Leads a k x
  leads_beyond : ∀ x ∈ beyond, g.Leads a (k + 1) x
  nearer : ∀ x j, j < k → g.Leads a j x → x ∈ seen
  level : ∀ x, g.Leads a k x → x ∈ seen ∨ x ∈ here
  closed : ∀ x ∈ seen, ∀ y, g.Edge x y → y ∈ seen ∨ y ∈ here ∨ y ∈ beyond

theorem Ring.next (h : g.Ring a k seen [] beyond) : g.Ring a (k + 1) seen beyond [] := by
  have hmet : ∀ x, g.Leads a k x → x ∈ seen := fun x hx => (h.level x hx).resolve_right List.not_mem_nil
  have hclosed : ∀ x ∈ seen, ∀ y, g.Edge x y → y ∈ seen ∨ y ∈ beyond := fun x hx y hxy => by
    simpa using h.closed x hx y hxy
  refine ⟨Nat.succ_pos k, h.leads_beyond, fun x hx => (by cases hx), fun x j hj hx => ?_, fun x hx => ?_,
    fun x hx y hxy => ?_⟩
  · rcases Nat.lt_or_eq_of_le (Nat.le_of_lt_succ hj) with hlt | rfl
    · exact h.nearer x j hlt hx
    · exact hmet x hx
  · -- a path of one edge more than the ring comes out of a node of the ring, and all of these were met
    cases hx with
    | edge _ => exact absurd h.pos (Nat.lt_irrefl 0)
    | next hy hyx => exact hclosed _ (hmet _ hy) x hyx
  · exact (hclosed x hx y hxy).imp_right .inl

theorem Ring.skip (h : g.Ring a k seen (n :: here) beyond) (hn : n ∈ seen) : g.Ring a k seen here beyond := by
  have hdrop : ∀ {x}, x ∈ n :: here → x ∈ seen ∨ x ∈ here := by
    intro x hx
    rcases List.mem_cons.1 hx with rfl | hx
    · exact .inl hn
    · exact .inr hx
  refine ⟨h.pos, fun x hx => h.leads_here x (List.mem_cons_of_mem _ hx), h.leads_beyond, h.nearer, fun x hx => ?_,
    fun x hx y hxy => ?_⟩
  · exact (h.level x hx).elim .inl hdrop
  · have := h.closed x hx y hxy
    have := @hdrop y
    tauto

/-- The first node that waits is in the ring, or the next ring begins with it. -/
theorem Ring.exists_head {rest : List α} (h : g.Ring a k seen here beyond) (hq : here ++ beyond = n :: rest) :
    ∃ j here' beyond', k ≤ j ∧ g.Ring a j seen (n :: here') beyond' ∧ here' ++ beyond' = rest := by
  cases here with
  | nil =>
    rw [List.nil_append] at hq
    subst hq
    exact ⟨k + 1, rest, [], Nat.le_succ k, h.next, List.append_nil rest⟩
  | cons m here =>
    obtain ⟨rfl, hrest⟩ := List.cons.inj hq
    exact ⟨k, here, beyond, Nat.le_refl k, h, hrest⟩

variable [DecidableEq α]

theorem ring_children (g : Graph α) (a : α) : g.Ring a 1 [] (g.children a) [] where
  pos := Nat.one_pos
  leads_here _ hx := .edge (mem_children.1 hx)
  leads_beyond _ hx := by cases hx
  nearer _ j hj h := absurd h.pos (by omega)
  level x h := by
    cases h with
    | edge h => exact .inr (mem_children.2 h)
    | next h _ => exact absurd h.pos (by omega)
  closed _ hx := by cases hx

theorem Ring.meet (h : g.Ring a k seen (n :: here) beyond) :
    g.Ring a k (n :: seen) here (beyond ++ g.children n) := by
  have hn : g.Leads a k n := h.leads_here n List.mem_cons_self
  refine ⟨h.pos, fun x hx => h.leads_here x (List.mem_cons_of_mem _ hx), fun x hx => ?_,
    fun x j hj hx => List.mem_cons_of_mem _ (h.nearer x j hj hx), fun x hx => ?_, fun x hx y hxy => ?_⟩
  · rcases List.mem_append.1 hx with hx | hx
    · exact h.leads_beyond x hx
    · exact .next hn (mem_children.1 hx)
  · have := h.level x hx
    simp only [List.mem_cons] at this ⊢
    tauto
  · rw [List.mem_append, mem_children]
    rcases List.mem_cons.1 hx with rfl | hx
    · exact .inr (.inr (.inr hxy))
    · have := h.closed x hx y hxy
      simp only [List.mem_cons] at this ⊢
      tauto

/-- **From a ring on, nodes are met in the order of their distances.** -/
theorem Ring.sweep (h : g.Ring a k seen here beyond) :
    (g.sweep seen (here ++ beyond)).Pairwise (fun x y => g.distance a x ≤ g.distance a y) ∧
    ∀ x ∈ g.sweep seen (here ++ beyond), k ≤ g.distance a x := by
  generalize hq : here ++ beyond = queue
  fun_induction Graph.sweep g seen queue generalizing k here beyond with
  | case1 => exact ⟨List.Pairwise.nil, fun x hx => by cases hx⟩
  | case2 seen n rest hn ih =>
    obtain ⟨j, here', beyond', hkj, hring, hrest⟩ := h.exists_head hq
    obtain ⟨hpair, hle⟩ := ih (hring.skip hn) hrest
    exact ⟨hpair, fun x hx => Nat.le_trans hkj (hle x hx)⟩
  | case3 seen n rest hn ih =>
    obtain ⟨j, here', beyond', hkj, hring, hrest⟩ := h.exists_head hq
    obtain ⟨hpair, hle⟩ := ih hring.meet (by rw [← List.append_assoc, hrest])
    -- what is nearer than the ring was met before, and `n` was not
    have hdist : g.distance a n = j :=
      (hring.leads_here n List.mem_cons_self).distance_eq fun i hi hleads => hn (hring.nearer n i hi hleads)
    refine ⟨List.pairwise_cons.2 ⟨fun x hx => hdist ▸ hle x hx, hpair⟩, fun x hx => Nat.le_trans hkj ?_⟩
    rcases List.mem_cons.1 hx with rfl | hx
    · exact Nat.le_of_eq hdist.symm
    · exact hle x hx

theorem pairwise_descendants (g : Graph α) (a : α) :
    (g.descendants a).Pairwise (fun x y => g.distance a x ≤ g.distance a y) := by
  have hsweep := (ring_children g a).sweep.1
  rwa [List.append_nil] at hsweep

end

/-! ## Rounds -/

variable [DecidableEq α] {n : α} {seen met rest : List α}

/-- **A search under way**: the nodes that it met, the latest first, and the nodes that wait. -/
structure Search (α : Type) where
  met : List α
  waiting : List α

def Search.start (g : Graph α) (a : α) : Search α := ⟨[], g.children a⟩

/-- How many nodes wait, and how many edges were not looked at. -/
def Search.load (g : Graph α) (s : Search α) : Nat := s.waiting.length + (g.edgesOutside s.met).length

theorem Search.load_mk (g : Graph α) (met waiting : List α) :
    Search.load g ⟨met, waiting⟩ = waiting.length + (g.edgesOutside met).length := rfl

theorem Search.load_start (g : Graph α) (a : α) : (Search.start g a).load g = g.outDegree a + g.edgeCount := by
  simp [Search.load, Search.start, edgesOutside, outDegree, edgeCount]

theorem length_edgesOutside_meet (g : Graph α) (hn : n ∉ seen) :
    (g.edgesOutside seen).length = (g.edgesOutside (n :: seen)).length + (g.children n).length := by
  have hchildren : (g.children n).length = (g.edgesOutside seen).countP (fun e => decide (e.1 = n)) := by
    rw [children, List.length_filterMap_eq_countP, edgesOutside, List.countP_filter]
    refine List.countP_congr fun e _ => ?_
    by_cases he : e.1 = n <;> simp [he, hn]
  rw [hchildren, edgesOutside_cons, ← List.countP_eq_length_filter, Nat.add_comm,
    List.length_eq_countP_add_countP (fun e => decide (e.1 = n))]
  simp

/-- **A round of the breadth-first search.**  The node that waits longest is passed over if it was met before; else it
is met, and its children wait behind all others. -/
def Search.round (g : Graph α) (s : Search α) : Search α :=
  match s.waiting with
  | [] => s
  | n :: rest => if n ∈ s.met then ⟨s.met, rest⟩ else ⟨n :: s.met, rest ++ g.children n⟩

/-- **After as many rounds as its load says, or more, the breadth-first search has met what a sweep lists.** -/
theorem Search.iterate_round (g : Graph α) : ∀ (rounds : Nat) {met waiting : List α},
    Search.load g ⟨met, waiting⟩ ≤ rounds →
    (Search.round g)^[rounds] ⟨met, waiting⟩ = ⟨(g.sweep met waiting).reverse ++ met, []⟩
  | rounds, met, [], _ => by
    have hstay : Search.round g ⟨met, []⟩ = ⟨met, []⟩ := rfl
    rw [Function.iterate_fixed hstay, sweep]
    rfl
  | 0, met, n :: rest, h => by
    rw [Search.load_mk, List.length_cons] at h
    omega
  | rounds + 1, met, n :: rest, h => by
    rw [Search.load_mk, List.length_cons] at h
    rw [Function.iterate_succ_apply, Search.round, sweep]
    by_cases hn : n ∈ met
    · simp only [hn, if_true]
      exact iterate_round g rounds (by rw [Search.load_mk]; omega)
    · -- the children that begin to wait are paid for by the edges that lead to them
      have hcount := g.length_edgesOutside_meet hn
      simp only [hn, if_false]
      rw [iterate_round g rounds (by rw [Search.load_mk, List.length_append]; omega), List.reverse_cons,
        List.append_assoc, List.singleton_append]

/-! ## Hunting for a target -/

/-- **A depth-first search for a target**, under way or over. -/
inductive Hunt (α : Type) where
  | on (search : Search α)
  | over (found : Bool)

/-- **A round of the depth-first search.**  The node that came last is taken off.  If it is the target, the search is
over, also when it was met before; else it is passed over, or met and its children come last. -/
def Hunt.round (g : Graph α) (target : α) : Hunt α → Hunt α
  | .over found => .over found
  | .on s =>
    match s.waiting.getLast? with
    | none => .over false
    | some n =>
      if n = target then .over true
      else if n ∈ s.met then .on ⟨s.met, s.waiting.dropLast⟩
      else .on ⟨n :: s.met, s.waiting.dropLast ++ g.children n⟩

/-- **What holds of a search for `target` from `a`**: what waits is reached, the target was not met, and the children of
`a` and of the nodes that were met were met or wait. -/
structure Hunts (g : Graph α) (a target : α) (s : Search α) : Prop where
  reached : ∀ x ∈ s.waiting, g.Path a x
  missed : target ∉ s.met
  begun : ∀ y ∈ g.children a, y ∈ s.met ∨ y ∈ s.waiting
  closed : ∀ x ∈ s.met, ∀ y ∈ g.children x, y ∈ s.met ∨ y ∈ s.waiting

theorem hunts_start (g : Graph α) (a target : α) : g.Hunts a target (.start g a) where
  reached _ hx := (mem_children.1 hx).path
  missed := List.not_mem_nil
  begun _ h := .inr h
  closed _ hx := by cases hx

variable {target : α} {s : Search α}

/-- When nothing waits any more, the target is not reached. -/
theorem Hunts.not_path (h : g.Hunts a target s) (hs : s.waiting = []) : ¬ g.Path a target := by
  intro hpath
  refine h.missed (mem_of_closed (fun y hy => ?_) (fun x hx y hy => ?_) hpath)
  · simpa [hs] using h.begun y hy
  · simpa [hs] using h.closed x hx y hy

theorem Hunts.skip (h : g.Hunts a target ⟨met, rest ++ [n]⟩) (hn : n ∈ met) : g.Hunts a target ⟨met, rest⟩ := by
  have hdrop : ∀ {y}, y ∈ met ∨ y ∈ rest ++ [n] → y ∈ met ∨ y ∈ rest := by
    intro y hy
    rcases hy with hy | hy
    · exact .inl hy
    rcases List.mem_append.1 hy with hy | hy
    · exact .inr hy
    · exact .inl (List.mem_singleton.1 hy ▸ hn)
  exact ⟨fun x hx => h.reached x (List.mem_append_left _ hx), h.missed, fun y hy => hdrop (h.begun y hy),
    fun x hx y hy => hdrop (h.closed x hx y hy)⟩

theorem Hunts.meet (h : g.Hunts a target ⟨met, rest ++ [n]⟩) (hn : n ≠ target) :
    g.Hunts a target ⟨n :: met, rest ++ g.children n⟩ := by
  have hpath : g.Path a n := h.reached n (List.mem_append_right _ List.mem_cons_self)
  have hmove : ∀ {y}, y ∈ met ∨ y ∈ rest ++ [n] → y ∈ n :: met ∨ y ∈ rest ++ g.children n := by
    intro y hy
    simp only [List.mem_append, List.mem_cons, List.not_mem_nil, or_false] at hy ⊢
    tauto
  refine ⟨fun x hx => ?_, fun hx => ?_, fun y hy => hmove (h.begun y hy), fun x hx y hy => ?_⟩
  · rcases List.mem_append.1 hx with hx | hx
    · exact h.reached x (List.mem_append_left _ hx)
    · exact hpath.trans (mem_children.1 hx).path
  · rcases List.mem_cons.1 hx with heq | hx
    · exact hn heq.symm
    · exact h.missed hx
  · rcases List.mem_cons.1 hx with rfl | hx
    · exact .inr (List.mem_append_right _ hy)
    · exact hmove (h.closed x hx y hy)

/-- **One round ends the search with the right answer, or takes one off its load.** -/
theorem Hunts.round (h : g.Hunts a target s) :
    Hunt.round g target (.on s) = .over (g.reaches a target) ∨
    ∃ s', Hunt.round g target (.on s) = .on s' ∧ g.Hunts a target s' ∧ s'.load g + 1 = s.load g := by
  obtain ⟨met, waiting⟩ := s
  rcases List.eq_nil_or_concat waiting with rfl | ⟨rest, n, rfl⟩
  · left
    rw [Bool.eq_false_iff.2 fun hr => h.not_path rfl (reaches_iff.1 hr)]
    rfl
  rw [List.concat_eq_append] at h ⊢
  rw [Search.load_mk, List.length_append, List.length_singleton]
  simp only [Hunt.round, List.getLast?_concat, List.dropLast_concat]
  by_cases htarget : n = target
  · left
    have hpath : g.Path a n := h.reached n (List.mem_append_right _ List.mem_cons_self)
    rw [if_pos htarget, reaches_iff.2 (htarget ▸ hpath)]
  right
  rw [if_neg htarget]
  by_cases hmet : n ∈ met
  · refine ⟨_, if_pos hmet, h.skip hmet, ?_⟩
    rw [Search.load_mk]
    omega
  · have hcount := g.length_edgesOutside_meet hmet
    refine ⟨_, if_neg hmet, h.meet htarget, ?_⟩
    rw [Search.load_mk, List.length_append]
    omega

/-- **After more rounds than its load says, the search is over, with the right answer.** -/
theorem Hunts.iterate_round : ∀ (rounds : Nat) {s : Search α}, g.Hunts a target s → s.load g < rounds →
    (Hunt.round g target)^[rounds] (.on s) = .over (g.reaches a target)
  | rounds + 1, s, h, hlt => by
    rw [Function.iterate_succ_apply]
    rcases h.round with hover | ⟨s', hon, hs', hload⟩
    · rw [hover]
      exact Function.iterate_fixed rfl rounds
    · rw [hon]
      exact hs'.iterate_round rounds (by omega)

/-! ## Both searches -/

/-- **Both searches are exact**, on every graph and from every value, be it a node or not.  The descendants of `a` are
the ends of the paths of one edge or more, each once, and by the length of a shortest one.  `b` is reached from `a`
exactly if it is one of them.  Run as loops, a queue for the one and a stack for the other, both come to their end with
these results, after one round at most for each edge and one more for each edge of `a`. -/
theorem searches_exact (g : Graph α) (a : α) :
    (g.descendants a).Nodup ∧ (∀ b, b ∈ g.descendants a ↔ ∃ k, g.Leads a k b) ∧
    (∀ b ∈ g.descendants a, IsLeast {k | g.Leads a k b} (g.distance a b)) ∧
    (g.descendants a).Pairwise (fun x y => g.distance a x ≤ g.distance a y) ∧
    (∀ b, g.reaches a b = true ↔ b ∈ g.descendants a) ∧
    ∀ rounds, g.outDegree a + g.edgeCount ≤ rounds →
      (Search.round g)^[rounds] (.start g a) = ⟨(g.descendants a).reverse, []⟩ ∧
      ∀ b, (Hunt.round g b)^[rounds + 1] (.on (.start g a)) = .over (g.reaches a b) := by
  refine ⟨nodup_descendants g a, fun b => by rw [mem_descendants, path_iff_leads],
    fun b hb => isLeast_distance (mem_descendants.1 hb), pairwise_descendants g a,
    fun b => by rw [reaches_iff, mem_descendants], fun rounds h => ?_⟩
  rw [← Search.load_start] at h
  refine ⟨?_, fun b => (hunts_start g a b).iterate_round _ (Nat.lt_succ_of_le h)⟩
  have hend := Search.iterate_round g rounds h
  rwa [List.append_nil] at hend

-- Two cycles, one of them a self loop: both starts are met again, and 1 as late as the cycle is long.
example : (run [.addEdge 1 2, .addEdge 2 2, .addEdge 2 4, .addEdge 1 3, .addEdge 3 5, .addEdge 5 1]).descendants 1 =
    [2, 3, 4, 5, 1] := by cbv

end Graph
end LoopNest
