import Mathlib.Logic.Relation
import LoopNest.Proofs.Graph.WellFormed
/-!
# Proofs.Graph.Reach — the searches find exactly the paths

`Path` is the relation that the three searches compute: `descendants` lists the ends of the paths from a node, each
once (`mem_descendants`, `nodup_descendants`), `reaches` tests for one (`reaches_iff`), and `hasCycle` finds a path
from a node to itself (`WellFormed.hasCycle_eq_false_iff`).  Each search is complete because what it has expanded, when it ends, is closed
under the edges.
-/
namespace LoopNest
namespace Graph

variable {α : Type}

/-- **There is a path with at least one edge from `u` to `v`.** -/
def Path (g : Graph α) : α → α → Prop := Relation.TransGen g.Edge

/-- **No path leads from a node back to it.** -/
def Acyclic (g : Graph α) : Prop := ∀ n, ¬ g.Path n n

theorem Path.trans {g : Graph α} {u v w : α} (h : g.Path u v) (h' : g.Path v w) : g.Path u w :=
  Relation.TransGen.trans h h'

theorem Edge.path {g : Graph α} {u v : α} (h : g.Edge u v) : g.Path u v := Relation.TransGen.single h

theorem WellFormed.path_start {g : Graph α} (hg : g.WellFormed) {u v : α} (h : g.Path u v) : u ∈ g.nodes := by
  obtain ⟨w, hw, -⟩ := Relation.TransGen.head'_iff.1 h
  exact hg.start_mem hw

theorem WellFormed.path_end {g : Graph α} (hg : g.WellFormed) {u v : α} (h : g.Path u v) : v ∈ g.nodes := by
  obtain ⟨w, -, hw⟩ := Relation.TransGen.tail'_iff.1 h
  exact hg.end_mem hw

theorem WellFormed.not_acyclic_iff {g : Graph α} (hg : g.WellFormed) : ¬ g.Acyclic ↔ ∃ n ∈ g.nodes, g.Path n n := by
  simp only [Acyclic, not_forall, not_not]
  exact ⟨fun ⟨n, hn⟩ => ⟨n, hg.path_start hn, hn⟩, fun ⟨n, _, hn⟩ => ⟨n, hn⟩⟩

variable [DecidableEq α]

/-- **A set that holds the children of `a` and is closed under the edges holds all that `a` has a path to.** -/
theorem mem_of_closed {g : Graph α} {S : List α} {a b : α} (h0 : ∀ c ∈ g.children a, c ∈ S)
    (hc : ∀ x ∈ S, ∀ c ∈ g.children x, c ∈ S) (h : g.Path a b) : b ∈ S := by
  induction h with
  | single h => exact h0 _ (mem_children.2 h)
  | tail _ h ih => exact hc _ ih _ (mem_children.2 h)

/-! ## Breadth first -/

/-- What a sweep meets is at the end of a path from its queue. -/
theorem sweep_sound (g : Graph α) (seen queue : List α) :
    ∀ x ∈ g.sweep seen queue, ∃ q ∈ queue, Relation.ReflTransGen g.Edge q x := by
  fun_induction sweep g seen queue with
  | case1 => intro x hx; cases hx
  | case2 seen n rest hn ih =>
    intro x hx
    obtain ⟨q, hq, hqx⟩ := ih x hx
    exact ⟨q, List.mem_cons_of_mem _ hq, hqx⟩
  | case3 seen n rest hn ih =>
    intro x hx
    rcases List.mem_cons.1 hx with rfl | hx
    · exact ⟨x, List.mem_cons_self, .refl⟩
    · obtain ⟨q, hq, hqx⟩ := ih x hx
      rcases List.mem_append.1 hq with hq | hq
      · exact ⟨q, List.mem_cons_of_mem _ hq, hqx⟩
      · exact ⟨n, List.mem_cons_self, .head (mem_children.1 hq) hqx⟩

/-- **What a sweep leaves behind is closed**: with the nodes seen before, it holds the queue and the children of all
that it met. -/
theorem sweep_closed (g : Graph α) (seen queue : List α) :
    (∀ q ∈ queue, q ∈ seen ∨ q ∈ g.sweep seen queue) ∧
    ∀ x ∈ g.sweep seen queue, ∀ c ∈ g.children x, c ∈ seen ∨ c ∈ g.sweep seen queue := by
  fun_induction sweep g seen queue with
  | case1 => exact ⟨(fun q hq => by cases hq), (fun x hx => by cases hx)⟩
  | case2 seen n rest hn ih =>
    refine ⟨fun q hq => ?_, ih.2⟩
    rcases List.mem_cons.1 hq with rfl | hq
    · exact Or.inl hn
    · exact ih.1 q hq
  | case3 seen n rest hn ih =>
    have hmove : ∀ c, c ∈ n :: seen ∨ c ∈ g.sweep (n :: seen) (rest ++ g.children n) →
        c ∈ seen ∨ c ∈ n :: g.sweep (n :: seen) (rest ++ g.children n) := by
      intro c hc
      simp only [List.mem_cons] at hc ⊢
      tauto
    refine ⟨fun q hq => ?_, fun x hx c hc => ?_⟩
    · rcases List.mem_cons.1 hq with rfl | hq
      · exact Or.inr List.mem_cons_self
      · exact hmove q (ih.1 q (List.mem_append_left _ hq))
    · rcases List.mem_cons.1 hx with rfl | hx
      · exact hmove c (ih.1 c (List.mem_append_right _ hc))
      · exact hmove c (ih.2 x hx c hc)

/-- A sweep meets a node once, and none that was seen before. -/
theorem nodup_sweep (g : Graph α) (seen queue : List α) :
    (g.sweep seen queue).Nodup ∧ ∀ x ∈ g.sweep seen queue, x ∉ seen := by
  fun_induction sweep g seen queue with
  | case1 => exact ⟨List.nodup_nil, (fun x hx => by cases hx)⟩
  | case2 seen n rest hn ih => exact ih
  | case3 seen n rest hn ih =>
    refine ⟨List.nodup_cons.2 ⟨fun h => ih.2 n h List.mem_cons_self, ih.1⟩, fun x hx => ?_⟩
    rcases List.mem_cons.1 hx with rfl | hx
    · exact hn
    · exact fun h => ih.2 x hx (List.mem_cons_of_mem _ h)

/-- **The descendants of a node are the ends of its paths.** -/
theorem mem_descendants {g : Graph α} {a b : α} : b ∈ g.descendants a ↔ g.Path a b := by
  unfold descendants
  constructor
  · intro h
    obtain ⟨q, hq, hqb⟩ := sweep_sound g [] (g.children a) b h
    exact Relation.TransGen.head' (mem_children.1 hq) hqb
  · intro h
    have hcl := sweep_closed g [] (g.children a)
    refine mem_of_closed (fun c hc => ?_) (fun x hx c hc => ?_) h
    · exact (hcl.1 c hc).resolve_left (by simp)
    · exact (hcl.2 x hx c hc).resolve_left (by simp)

theorem nodup_descendants (g : Graph α) (a : α) : (g.descendants a).Nodup := (nodup_sweep g [] (g.children a)).1

/-! ## Depth first -/

/-- A probe that meets its target has a path to it from its stack. -/
theorem probe_sound (g : Graph α) (target : α) (seen stack : List α) (h : g.probe target seen stack = true) :
    ∃ q ∈ stack, Relation.ReflTransGen g.Edge q target := by
  fun_induction probe g target seen stack with
  | case1 => cases h
  | case2 seen rest => exact ⟨target, List.mem_cons_self, .refl⟩
  | case3 seen n rest hn hs ih =>
    obtain ⟨q, hq, hqt⟩ := ih h
    exact ⟨q, List.mem_cons_of_mem _ hq, hqt⟩
  | case4 seen n rest hn hs ih =>
    obtain ⟨q, hq, hqt⟩ := ih h
    rcases List.mem_append.1 hq with hq | hq
    · exact ⟨n, List.mem_cons_self, .head (mem_children.1 hq) hqt⟩
    · exact ⟨q, List.mem_cons_of_mem _ hq, hqt⟩

/-- **A probe that fails has expanded a closed set without its target.** -/
theorem probe_closed (g : Graph α) (target : α) (seen stack : List α) (h : g.probe target seen stack = false) :
    ∃ S : List α, target ∉ S ∧ (∀ q ∈ stack, q ∈ seen ∨ q ∈ S) ∧
      ∀ x ∈ S, ∀ c ∈ g.children x, c ∈ seen ∨ c ∈ S := by
  fun_induction probe g target seen stack with
  | case1 => exact ⟨[], by simp, (fun q hq => by cases hq), (fun x hx => by cases hx)⟩
  | case2 seen rest => cases h
  | case3 seen n rest hn hs ih =>
    obtain ⟨S, ht, hq, hc⟩ := ih h
    refine ⟨S, ht, fun q hq' => ?_, hc⟩
    rcases List.mem_cons.1 hq' with rfl | hq'
    · exact Or.inl hs
    · exact hq q hq'
  | case4 seen n rest hn hs ih =>
    obtain ⟨S, ht, hq, hc⟩ := ih h
    have hmove : ∀ c, c ∈ n :: seen ∨ c ∈ S → c ∈ seen ∨ c ∈ n :: S := by
      intro c hc
      simp only [List.mem_cons] at hc ⊢
      tauto
    refine ⟨n :: S, ?_, fun q hq' => ?_, fun x hx c hxc => ?_⟩
    · rw [List.mem_cons, not_or]; exact ⟨Ne.symm hn, ht⟩
    · rcases List.mem_cons.1 hq' with rfl | hq'
      · exact Or.inr List.mem_cons_self
      · exact hmove q (hq q (List.mem_append_right _ hq'))
    · rcases List.mem_cons.1 hx with rfl | hx
      · exact hmove c (hq c (List.mem_append_left _ hxc))
      · exact hmove c (hc x hx c hxc)

/-- **`reaches` tests for a path.** -/
theorem reaches_iff {g : Graph α} {a b : α} : g.reaches a b = true ↔ g.Path a b := by
  unfold reaches
  constructor
  · intro h
    obtain ⟨q, hq, hqb⟩ := probe_sound g b [] (g.children a) h
    exact Relation.TransGen.head' (mem_children.1 hq) hqb
  · intro h
    by_contra hf
    obtain ⟨S, hb, hq, hc⟩ := probe_closed g b [] (g.children a) (by simpa using hf)
    refine hb (mem_of_closed (fun c hc' => ?_) (fun x hx c hc' => ?_) h)
    · exact (hq c hc').resolve_left (by simp)
    · exact (hc x hx c hc').resolve_left (by simp)

/-! ## Cycles -/

/-- **What settling promises of the settled nodes**: they are closed under the edges, none has a path back to itself,
and none is on the path that led here. -/
structure Settled (g : Graph α) (path settled : List α) : Prop where
  closed : ∀ x ∈ settled, ∀ c ∈ g.children x, c ∈ settled
  acyclic : ∀ x ∈ settled, ¬ g.Path x x
  fresh : ∀ x ∈ settled, x ∉ path

/-- Settling gives up only where a path leads back to its start. -/
theorem settle_eq_none (g : Graph α) (path settled todo : List α) (hp : ∀ p ∈ path, ∀ t ∈ todo, g.Path p t)
    (h : g.settle path settled todo = none) : ∃ n, g.Path n n := by
  fun_induction settle g path settled todo with
  | case1 => cases h
  | case2 path settled n rest hn => exact ⟨n, hp n hn n List.mem_cons_self⟩
  | case3 path settled n rest hn hs ih => exact ih (fun p hpp t ht => hp p hpp t (List.mem_cons_of_mem _ ht)) h
  | case4 path settled n rest hn hs hnone ih =>
    refine ih (fun p hpp t ht => ?_) hnone
    rcases List.mem_cons.1 hpp with rfl | hpp
    · exact (mem_children.1 ht).path
    · exact (hp p hpp n List.mem_cons_self).trans (mem_children.1 ht).path
  | case5 path settled n rest hn hs settled' hsome ih1 ih2 =>
    exact ih2 (fun p hpp t ht => hp p hpp t (List.mem_cons_of_mem _ ht)) h

/-- **Settling to the end settles all that was to do**, and keeps the promise. -/
theorem settle_eq_some (g : Graph α) (path settled todo : List α) (S : List α) (hs : g.Settled path settled)
    (h : g.settle path settled todo = some S) :
    g.Settled path S ∧ (∀ x ∈ settled, x ∈ S) ∧ ∀ t ∈ todo, t ∈ S := by
  fun_induction settle g path settled todo generalizing S with
  | case1 =>
    cases h
    exact ⟨hs, fun x hx => hx, (fun t ht => by cases ht)⟩
  | case2 => cases h
  | case3 path settled n rest hn hset ih =>
    obtain ⟨h1, h2, h3⟩ := ih S hs h
    refine ⟨h1, h2, fun t ht => ?_⟩
    rcases List.mem_cons.1 ht with rfl | ht
    · exact h2 t hset
    · exact h3 t ht
  | case4 => cases h
  | case5 path settled n rest hn hset settled' hsome ih1 ih2 =>
    have hs1 : g.Settled (n :: path) settled := by
      refine ⟨hs.closed, hs.acyclic, fun x hx => ?_⟩
      rw [List.mem_cons, not_or]
      exact ⟨fun hxn => hset (hxn ▸ hx), hs.fresh x hx⟩
    obtain ⟨h1, h2, h3⟩ := ih1 settled' hs1 hsome
    -- a path from `n` back to `n` would stay among the nodes settled below it, and `n` is none of them
    have hnn : ¬ g.Path n n := fun hnn => h1.fresh n (mem_of_closed h3 h1.closed hnn) List.mem_cons_self
    have hs2 : g.Settled path (n :: settled') := by
      refine ⟨fun x hx c hc => ?_, fun x hx => ?_, fun x hx => ?_⟩ <;> rcases List.mem_cons.1 hx with rfl | hx
      · exact List.mem_cons_of_mem _ (h3 c hc)
      · exact List.mem_cons_of_mem _ (h1.closed x hx c hc)
      · exact hnn
      · exact h1.acyclic x hx
      · exact hn
      · exact fun hp => h1.fresh x hx (List.mem_cons_of_mem _ hp)
    obtain ⟨k1, k2, k3⟩ := ih2 S hs2 h
    refine ⟨k1, fun x hx => k2 x (List.mem_cons_of_mem _ (h2 x hx)), fun t ht => ?_⟩
    rcases List.mem_cons.1 ht with rfl | ht
    · exact k2 t List.mem_cons_self
    · exact k3 t ht

/-- **The test for cycles is exact.** -/
theorem WellFormed.hasCycle_eq_false_iff {g : Graph α} (hg : g.WellFormed) : g.hasCycle = false ↔ g.Acyclic := by
  unfold hasCycle Acyclic
  rw [Option.isNone_eq_false_iff, Option.isSome_iff_exists]
  constructor
  · rintro ⟨S, hS⟩ n hn
    have h0 : g.Settled [] [] := ⟨(fun x hx => by cases hx), (fun x hx => by cases hx), (fun x hx => by cases hx)⟩
    obtain ⟨h1, -, h3⟩ := settle_eq_some g [] [] g.nodes S h0 hS
    exact h1.acyclic n (h3 n (hg.path_start hn)) hn
  · intro h
    cases hS : g.settle [] [] g.nodes with
    | some S => exact ⟨S, rfl⟩
    | none =>
      obtain ⟨n, hn⟩ := settle_eq_none g [] [] g.nodes (fun p hp => by cases hp) hS
      exact absurd hn (h n)

end Graph
end LoopNest
