import Mathlib.Data.List.Chain
import LoopNest.Proofs.Flow.Placement
/-!
# Proofs.Flow.Nesting — the scheduled orders are the layered ones

When the graph is acyclic and every loop reaches the next (`Nested`), the weight of a node says where it goes: twice
the number of loops around it, and one more for a loop.  A list with the nodes of weight `2 * k` and more, sorted by
weight and without an edge that points back, is a `Stage`.  The stage at `0` is a scheduled order (`stage_zero_iff`),
and a stage is the statements of one layer, the next loop, and the next stage (`layered_iff`).
-/
namespace LoopNest
namespace Flow

open LoopNest.Graph (WellFormed Topological mem_descendants nodup_descendants)

/-! ## The loops of a graph -/

theorem nests_loops_perm (g : Graph Node) : ((nests g).map Nest.loop).Perm (g.nodes.filter Node.isLoop) := by
  unfold nests
  rw [List.map_map]
  refine ((List.mergeSort_perm _ _).map _).trans ?_
  rw [List.map_map]
  exact List.Perm.of_eq (List.map_id _)

theorem nests_inside (g : Graph Node) {a : Nest} (ha : a ∈ nests g) : a.inside = g.descendants a.loop := by
  unfold nests at ha
  obtain ⟨p, hp, rfl⟩ := List.mem_map.1 ha
  obtain ⟨l, -, rfl⟩ := List.mem_map.1 (List.mem_mergeSort.1 hp)
  rfl

theorem mem_inside_iff {g : Graph Node} {a : Nest} (ha : a ∈ nests g) {x : Node} : x ∈ a.inside ↔ g.Path a.loop x := by
  rw [nests_inside g ha, mem_descendants]

theorem exists_nest_iff {g : Graph Node} {l : Node} :
    (∃ a ∈ nests g, a.loop = l) ↔ l ∈ g.nodes ∧ l.isLoop = true := by
  rw [← List.mem_filter, ← (nests_loops_perm g).mem_iff, List.mem_map]

/-- The loops come by their required index. -/
theorem nests_sorted (g : Graph Node) :
    (nests g).Pairwise (fun a b => requiredIndex g a.loop ≤ requiredIndex g b.loop) := by
  have hs : (((g.nodes.filter Node.isLoop).map (fun l => (requiredIndex g l, (⟨l, g.descendants l⟩ : Nest)))).mergeSort
      (fun a b => decide (a.1 ≤ b.1))).Pairwise (fun a b => decide (a.1 ≤ b.1) = true) :=
    List.pairwise_mergeSort (fun a b c h1 h2 => by simp only [decide_eq_true_eq] at *; omega)
      (fun a b => by simp only [Bool.or_eq_true, decide_eq_true_eq]; omega) _
  unfold nests
  rw [List.pairwise_map]
  refine hs.imp_of_mem ?_
  intro p q hp hq hpq
  obtain ⟨l, -, rfl⟩ := List.mem_map.1 (List.mem_mergeSort.1 hp)
  obtain ⟨m, -, rfl⟩ := List.mem_map.1 (List.mem_mergeSort.1 hq)
  exact of_decide_eq_true hpq

theorem nests_nodup {g : Graph Node} (hg : g.WellFormed) : (nests g).Pairwise (fun a b => a.loop ≠ b.loop) :=
  List.pairwise_map.1 ((nests_loops_perm g).nodup_iff.2 (hg.nodup_nodes.filter _))

/-- **The graph is acyclic and every loop reaches the next.** -/
structure Nested (g : Graph Node) : Prop where
  acyclic : g.Acyclic
  chain : (nests g).Pairwise (fun a b => g.Path a.loop b.loop)

theorem length_descendants_lt {g : Graph Node} (hacyc : g.Acyclic) {u v : Node} (h : g.Path u v) :
    (g.descendants v).length < (g.descendants u).length := by
  have hnd : (v :: g.descendants v).Nodup :=
    List.nodup_cons.2 ⟨fun hv => hacyc v (mem_descendants.1 hv), nodup_descendants g v⟩
  have hsub : v :: g.descendants v ⊆ g.descendants u := by
    intro x hx
    rw [mem_descendants]
    rcases List.mem_cons.1 hx with rfl | hx
    · exact h
    · exact h.trans (mem_descendants.1 hx)
  exact (List.subperm_of_subset hnd hsub).length_le

/-- **An acyclic graph in which any two loops are on a path is nested.** -/
theorem nested_of_comparable {g : Graph Node} (hg : g.WellFormed) (hacyc : g.Acyclic)
    (h : ∀ a ∈ g.nodes, a.isLoop = true → ∀ b ∈ g.nodes, b.isLoop = true → a ≠ b → g.Path a b ∨ g.Path b a) :
    Nested g := by
  refine ⟨hacyc, ((nests_sorted g).and (nests_nodup hg)).imp_of_mem ?_⟩
  rintro a b ha hb ⟨hle, hne⟩
  obtain ⟨hag, hal⟩ := exists_nest_iff.1 ⟨a, ha, rfl⟩
  obtain ⟨hbg, hbl⟩ := exists_nest_iff.1 ⟨b, hb, rfl⟩
  rcases h _ hag hal _ hbg hbl hne with hab | hba
  · exact hab
  · have hlt := length_descendants_lt hacyc hba
    unfold requiredIndex at hle
    omega

theorem apart?_eq_none_iff : ∀ {ns : List Nest}, apart? ns = none ↔ ns.IsChain (fun a b => b.loop ∈ a.inside)
  | [] => by simp [apart?]
  | [a] => by simp [apart?]
  | a :: b :: ns => by
    rw [apart?, List.isChain_cons_cons]
    split
    · rename_i h
      rw [apart?_eq_none_iff]
      exact ⟨fun hc => ⟨h, hc⟩, And.right⟩
    · rename_i h
      constructor
      · intro hn; cases hn
      · exact fun hc => absurd hc.1 h

/-- **Neighbouring loops nest exactly if all do.** -/
theorem apart?_nests_eq_none_iff (g : Graph Node) :
    apart? (nests g) = none ↔ (nests g).Pairwise (fun a b => g.Path a.loop b.loop) := by
  have : Trans (fun a b : Nest => g.Path a.loop b.loop) (fun a b : Nest => g.Path a.loop b.loop)
      (fun a b : Nest => g.Path a.loop b.loop) := ⟨fun h h' => h.trans h'⟩
  rw [apart?_eq_none_iff, ← List.isChain_iff_pairwise]
  exact List.IsChain.iff_of_mem_imp (fun a b ha _ => mem_inside_iff ha)

/-! ## Depth and weight -/

/-- **Where a node goes**: after the loops around it, and a loop after the statements outside of it. -/
def weight (ns : List Nest) (x : Node) : Nat := 2 * depth ns x + if x.isLoop then 1 else 0

theorem weight_of_loop {ns : List Nest} {x : Node} (h : x.isLoop = true) : weight ns x = 2 * depth ns x + 1 := by
  unfold weight; rw [if_pos h]

theorem weight_of_statement {ns : List Nest} {x : Node} (h : ¬ x.isLoop = true) : weight ns x = 2 * depth ns x := by
  unfold weight; rw [if_neg h, Nat.add_zero]

section
variable {g : Graph Node} {x y : Node}

theorem depth_mono (h : ∀ a ∈ nests g, g.Path a.loop x → g.Path a.loop y) : depth (nests g) x ≤ depth (nests g) y := by
  unfold depth
  refine List.countP_mono_left (fun a ha hx => ?_)
  rw [decide_eq_true_iff, mem_inside_iff ha] at hx ⊢
  exact h a ha hx

/-- A node inside of a loop, and of all loops around it, is deeper than the loop. -/
theorem depth_lt_of_path (hacyc : g.Acyclic) (hx : x.isLoop = true) (hxg : x ∈ g.nodes) (h : g.Path x y) :
    depth (nests g) x < depth (nests g) y := by
  obtain ⟨a, ha, rfl⟩ := exists_nest_iff.2 ⟨hxg, hx⟩
  unfold depth
  rw [List.countP_eq_length_filter, List.countP_eq_length_filter]
  have hsub : (nests g).filter (fun b => decide (a.loop ∈ b.inside)) =
      ((nests g).filter (fun b => decide (y ∈ b.inside))).filter (fun b => decide (a.loop ∈ b.inside)) := by
    rw [List.filter_filter]
    refine List.filter_congr (fun b hb => ?_)
    by_cases hab : a.loop ∈ b.inside
    · have hyb : y ∈ b.inside := (mem_inside_iff hb).2 (((mem_inside_iff hb).1 hab).trans h)
      simp [hab, hyb]
    · simp [hab]
  rw [hsub]
  refine List.length_filter_lt_length_iff_exists.2 ⟨a, List.mem_filter.2 ⟨ha, ?_⟩, ?_⟩
  · rw [decide_eq_true_iff]; exact (mem_inside_iff ha).2 h
  · rw [decide_eq_true_iff]; exact fun hself => hacyc _ ((mem_inside_iff ha).1 hself)

/-- **What is inside of more loops weighs more**, and what is inside of a loop weighs more than the loop. -/
theorem weight_mono (hacyc : g.Acyclic) (hxg : x ∈ g.nodes) (h : ∀ a ∈ nests g, g.Path a.loop x → g.Path a.loop y)
    (hloop : x.isLoop = true → g.Path x y) : weight (nests g) x ≤ weight (nests g) y := by
  by_cases hx : x.isLoop = true
  · have := depth_lt_of_path hacyc hx hxg (hloop hx)
    rw [weight_of_loop hx]
    unfold weight
    omega
  · have := depth_mono h
    rw [weight_of_statement hx]
    unfold weight
    omega

theorem weight_mono_of_edge (hg : g.WellFormed) (hacyc : g.Acyclic) (h : g.Edge x y) :
    weight (nests g) x ≤ weight (nests g) y :=
  weight_mono hacyc (hg.start_mem h) (fun _ _ hl => hl.trans h.path) (fun _ => h.path)

end

section
variable {g : Graph Node} {pre post : List Nest} {a : Nest} (hns : nests g = pre ++ a :: post)

include hns

theorem isLoop_of_nests : a.loop ∈ g.nodes ∧ a.loop.isLoop = true := by
  refine exists_nest_iff.1 ⟨a, ?_, rfl⟩
  rw [hns]
  exact List.mem_append_right _ List.mem_cons_self

theorem length_le_depth {x : Node} (h : ∀ b ∈ pre, g.Path b.loop x) : pre.length ≤ depth (nests g) x := by
  have hmem : ∀ b ∈ nests g, (x ∈ b.inside ↔ g.Path b.loop x) := fun b hb => mem_inside_iff hb
  rw [hns] at hmem ⊢
  unfold depth
  have hall : pre.countP (fun b => decide (x ∈ b.inside)) = pre.length := by
    refine List.countP_eq_length.2 (fun b hb => ?_)
    rw [decide_eq_true_iff, hmem b (List.mem_append_left _ hb)]
    exact h b hb
  rw [List.countP_append, hall]
  exact Nat.le_add_right _ _

theorem depth_le_length {x : Node} (h : ∀ b ∈ a :: post, ¬ g.Path b.loop x) : depth (nests g) x ≤ pre.length := by
  have hmem : ∀ b ∈ nests g, (x ∈ b.inside ↔ g.Path b.loop x) := fun b hb => mem_inside_iff hb
  rw [hns] at hmem ⊢
  unfold depth
  have hnone : (a :: post).countP (fun b => decide (x ∈ b.inside)) = 0 := by
    refine List.countP_eq_zero.2 (fun b hb => ?_)
    rw [decide_eq_true_iff, hmem b (List.mem_append_right _ hb)]
    exact h b hb
  rw [List.countP_append, hnone, Nat.add_zero]
  exact List.countP_le_length

variable (hn : Nested g)

include hn

theorem Nested.path_of_mem_post {b : Nest} (hb : b ∈ post) : g.Path a.loop b.loop := by
  have hc := hn.chain
  rw [hns] at hc
  exact (List.pairwise_cons.1 (List.pairwise_append.1 hc).2.1).1 b hb

/-- **What is deeper than a loop is inside of it.** -/
theorem Nested.path_of_depth_lt {x : Node} (h : pre.length < depth (nests g) x) : g.Path a.loop x := by
  by_contra hax
  have := depth_le_length hns (x := x) (fun b hb hbx => by
    rcases List.mem_cons.1 hb with rfl | hb
    · exact hax hbx
    · exact hax ((Nested.path_of_mem_post hns hn hb).trans hbx))
  omega

/-- **A loop is as deep as there are loops before it.** -/
theorem Nested.depth_loop : depth (nests g) a.loop = pre.length := by
  refine Nat.le_antisymm (depth_le_length hns (fun b hb hba => ?_)) (length_le_depth hns (fun b hb => ?_))
  · rcases List.mem_cons.1 hb with rfl | hb
    · exact hn.acyclic _ hba
    · exact hn.acyclic _ (hba.trans (Nested.path_of_mem_post hns hn hb))
  · have hc := hn.chain
    rw [hns] at hc
    exact (List.pairwise_append.1 hc).2.2 b hb a List.mem_cons_self

theorem Nested.weight_loop : weight (nests g) a.loop = 2 * pre.length + 1 := by
  rw [weight_of_loop (isLoop_of_nests hns).2, Nested.depth_loop hns hn]

/-- **A loop weighs what no other node weighs.** -/
theorem Nested.eq_loop_of_weight {x : Node} (hx : x ∈ g.nodes) (hw : weight (nests g) x = 2 * pre.length + 1) :
    x = a.loop := by
  have hxl : x.isLoop = true := by
    by_contra hxl
    rw [weight_of_statement hxl] at hw
    omega
  obtain ⟨b, hb, rfl⟩ := exists_nest_iff.2 ⟨hx, hxl⟩
  obtain ⟨pre', post', hns'⟩ := List.append_of_mem hb
  rw [Nested.weight_loop hns' hn] at hw
  obtain ⟨-, htail⟩ := List.append_inj (hns'.symm.trans hns) (by omega)
  rw [(List.cons.inj htail).1]

end

/-! ## Stages -/

/-- **A stage**: the nodes that weigh `2 * k` or more, sorted by weight, without an edge that points back. -/
structure Stage (g : Graph Node) (k : Nat) (o : List Node) : Prop where
  sorted : o.Pairwise (fun x y => x ≠ y ∧ weight (nests g) x ≤ weight (nests g) y ∧ ¬ g.Edge y x)
  mem_iff : ∀ x, x ∈ o ↔ x ∈ g.nodes ∧ 2 * k ≤ weight (nests g) x

section
variable {g : Graph Node} (hg : g.WellFormed) (hn : Nested g) {o : List Node}
include hg hn

theorem Stage.scheduled (h : Stage g 0 o) : Scheduled g o := by
  have hnd : o.Nodup := h.sorted.imp And.left
  have ht : g.Topological o := by
    refine ⟨(List.perm_ext_iff_of_nodup hnd hg.nodup_nodes).2 (fun x => ?_), h.sorted.imp (fun hxy => hxy.2.2),
      fun x hx => hn.acyclic x hx.path⟩
    rw [h.mem_iff]
    exact ⟨And.left, fun hx => ⟨hx, Nat.zero_le _⟩⟩
  refine ⟨ht, fun l hl hloop => requiredIndex_eq_of_after hg ht hl (fun x hx hlt => ?_)⟩
  obtain ⟨a, ha, rfl⟩ := exists_nest_iff.2 ⟨((h.mem_iff l).1 hl).1, hloop⟩
  obtain ⟨pre, post, hns⟩ := List.append_of_mem ha
  refine Nested.path_of_depth_lt hns hn ?_
  -- sorting gives `x` at least the weight of the loop, and only the loop has that weight
  have hle : weight (nests g) a.loop ≤ weight (nests g) x := by
    have := List.pairwise_iff_getElem.1 h.sorted _ _ (List.idxOf_lt_length_of_mem hl)
      (List.idxOf_lt_length_of_mem hx) hlt
    rw [List.getElem_idxOf, List.getElem_idxOf] at this
    exact this.2.1
  have hne : weight (nests g) x ≠ 2 * pre.length + 1 := by
    intro hw
    have := Nested.eq_loop_of_weight hns hn ((h.mem_iff x).1 hx).1 hw
    rw [this] at hlt
    exact Nat.lt_irrefl _ hlt
  rw [Nested.weight_loop hns hn] at hle
  by_cases hxl : x.isLoop = true
  · rw [weight_of_loop hxl] at hle hne; omega
  · rw [weight_of_statement hxl] at hle; omega

theorem Scheduled.stage (h : Scheduled g o) : Stage g 0 o := by
  have hnd := h.topological.nodup hg
  refine ⟨?_, fun x => ?_⟩
  · rw [List.pairwise_iff_getElem]
    intro i j hi hj hij
    have hlt : o.idxOf o[i] < o.idxOf o[j] := by rw [hnd.idxOf_getElem, hnd.idxOf_getElem]; exact hij
    have hi := List.getElem_mem hi
    have hj := List.getElem_mem hj
    have hin : ∀ {n : Node}, n ∈ o → n ∈ g.nodes := fun hn => h.topological.perm.mem_iff.1 hn
    refine ⟨fun heq => ?_, ?_, fun hedge => ?_⟩
    · rw [heq] at hlt; exact Nat.lt_irrefl _ hlt
    · refine weight_mono hn.acyclic (hin hi) (fun a ha hai => ?_) (fun hloop => (h.after_iff hg hi hloop hj).1 hlt)
      obtain ⟨hag, hal⟩ := exists_nest_iff.1 ⟨a, ha, rfl⟩
      have hao := h.topological.perm.mem_iff.2 hag
      exact (h.after_iff hg hao hal hj).1 (Nat.lt_trans ((h.after_iff hg hao hal hi).2 hai) hlt)
    · exact Nat.lt_asymm hlt (h.topological.edge_lt hg hedge)
  · rw [h.topological.perm.mem_iff]
    exact ⟨fun hx => ⟨hx, Nat.zero_le _⟩, And.left⟩

/-- **The stage at `0` is a scheduled order.** -/
theorem stage_zero_iff : Stage g 0 o ↔ Scheduled g o := ⟨Stage.scheduled hg hn, Scheduled.stage hg hn⟩

end

/-- The statements inside of exactly `k` loops. -/
def layerGraph (g : Graph Node) (ns : List Nest) (k : Nat) : Graph Node :=
  g.induced (fun n => !n.isLoop && decide (depth ns n = k))

theorem mem_layerGraph {g : Graph Node} {k : Nat} {x : Node} :
    x ∈ (layerGraph g (nests g) k).nodes ↔ x ∈ g.nodes ∧ weight (nests g) x = 2 * k := by
  unfold layerGraph
  rw [Graph.mem_nodes_induced, Bool.and_eq_true, decide_eq_true_iff, Bool.not_eq_true']
  refine and_congr_right (fun _ => ?_)
  by_cases hx : x.isLoop = true
  · rw [weight_of_loop hx]
    constructor
    · rintro ⟨h, -⟩; rw [hx] at h; cases h
    · intro h; omega
  · rw [weight_of_statement hx]
    constructor
    · rintro ⟨-, h⟩; omega
    · exact fun h => ⟨by simpa using hx, by omega⟩

/-- **The orders that are built layer by layer**: the statements of layer `k`, the next loop, and what comes inside. -/
def Layered (g : Graph Node) (ns : List Nest) : Nat → List Nest → List Node → Prop
  | k, [], o => (layerGraph g ns k).Topological o
  | k, a :: rest, o => ∃ here inner, o = here ++ a.loop :: inner ∧ (layerGraph g ns k).Topological here ∧
      Layered g ns (k + 1) rest inner

/-- The topological orders of a layer, in terms of the whole graph. -/
theorem topological_layerGraph_iff {g : Graph Node} (hg : g.WellFormed) (hacyc : g.Acyclic) {k : Nat} {o : List Node} :
    (layerGraph g (nests g) k).Topological o ↔
      o.Pairwise (fun x y => x ≠ y ∧ ¬ g.Edge y x) ∧ ∀ x, x ∈ o ↔ x ∈ g.nodes ∧ weight (nests g) x = 2 * k := by
  have hl : (layerGraph g (nests g) k).WellFormed := hg.induced _
  constructor
  · intro h
    refine ⟨?_, fun x => by rw [h.perm.mem_iff, mem_layerGraph]⟩
    refine (List.Pairwise.and (h.nodup hl) h.forward).imp_of_mem ?_
    rintro x y hx hy ⟨hne, hxy⟩
    exact ⟨hne, fun he => hxy (Graph.edge_induced.2 ⟨he, h.perm.mem_iff.1 hy, h.perm.mem_iff.1 hx⟩)⟩
  · rintro ⟨hpw, hmem⟩
    have hnd : o.Nodup := hpw.imp And.left
    refine ⟨(List.perm_ext_iff_of_nodup hnd hl.nodup_nodes).2 (fun x => by rw [hmem, mem_layerGraph]), hpw.imp ?_, ?_⟩
    · rintro x y ⟨-, hxy⟩ he
      exact hxy (Graph.edge_induced.1 he).1
    · exact fun x hx => hacyc x (Graph.edge_induced.1 hx).1.path

theorem Nested.weight_le {g : Graph Node} (hn : Nested g) {x : Node} (hx : x ∈ g.nodes) :
    weight (nests g) x ≤ 2 * (nests g).length := by
  have hle : depth (nests g) x ≤ (nests g).length := List.countP_le_length
  by_cases hxl : x.isLoop = true
  · obtain ⟨a, ha, rfl⟩ := exists_nest_iff.2 ⟨hx, hxl⟩
    obtain ⟨pre, post, hns⟩ := List.append_of_mem ha
    have hlen : (nests g).length = pre.length + (post.length + 1) := by rw [hns]; simp
    rw [Nested.weight_loop hns hn]
    omega
  · rw [weight_of_statement hxl]; omega

/-- The stage inside of all loops is the last layer. -/
theorem stage_last_iff {g : Graph Node} (hg : g.WellFormed) (hn : Nested g) {o : List Node} :
    Stage g (nests g).length o ↔ (layerGraph g (nests g) (nests g).length).Topological o := by
  have heq : ∀ x, (x ∈ g.nodes ∧ 2 * (nests g).length ≤ weight (nests g) x) ↔
      (x ∈ g.nodes ∧ weight (nests g) x = 2 * (nests g).length) := by
    intro x
    refine and_congr_right (fun hx => ?_)
    have := hn.weight_le hx
    omega
  rw [topological_layerGraph_iff hg hn.acyclic]
  constructor
  · intro h
    exact ⟨h.sorted.imp (fun hxy => ⟨hxy.1, hxy.2.2⟩), fun x => by rw [h.mem_iff, heq]⟩
  · rintro ⟨hpw, hmem⟩
    refine ⟨hpw.imp_of_mem ?_, fun x => by rw [hmem, heq]⟩
    intro x y hx hy hxy
    have h1 := ((hmem x).1 hx).2
    have h2 := ((hmem y).1 hy).2
    exact ⟨hxy.1, by omega, hxy.2⟩

section
variable {g : Graph Node} (hg : g.WellFormed) (hn : Nested g) {pre post : List Nest} {a : Nest}
  (hns : nests g = pre ++ a :: post)
include hn hns

/-- A node at a stage is in its layer, or is its loop, or is at the next stage. -/
theorem Nested.weight_cases {x : Node} (hx : x ∈ g.nodes) : 2 * pre.length ≤ weight (nests g) x ↔
    weight (nests g) x = 2 * pre.length ∨ x = a.loop ∨ 2 * (pre.length + 1) ≤ weight (nests g) x := by
  constructor
  · intro hw
    by_cases heq : weight (nests g) x = 2 * pre.length + 1
    · exact Or.inr (Or.inl (Nested.eq_loop_of_weight hns hn hx heq))
    · omega
  · rintro (hw | rfl | hw)
    · omega
    · rw [Nested.weight_loop hns hn]; omega
    · omega

include hg

/-- A stage falls apart into a layer, a loop and the next stage. -/
theorem Stage.exists_layer {o : List Node} (h : Stage g pre.length o) : ∃ here inner, o = here ++ a.loop :: inner ∧
    (layerGraph g (nests g) pre.length).Topological here ∧ Stage g (pre.length + 1) inner := by
  have hwa := Nested.weight_loop hns hn
  obtain ⟨here, inner, rfl⟩ := List.append_of_mem ((h.mem_iff a.loop).2 ⟨(isLoop_of_nests hns).1, by omega⟩)
  obtain ⟨hh, hai, hcross⟩ := List.pairwise_append.1 h.sorted
  obtain ⟨hain, hi⟩ := List.pairwise_cons.1 hai
  -- the loop alone has its weight, so what is sorted before it weighs less and what comes after it weighs more
  have hhere : ∀ x ∈ here, x ∈ g.nodes ∧ weight (nests g) x = 2 * pre.length := by
    intro x hx
    obtain ⟨hxg, hxw⟩ := (h.mem_iff x).1 (List.mem_append_left _ hx)
    obtain ⟨hne, hle, -⟩ := hcross x hx a.loop List.mem_cons_self
    rcases (Nested.weight_cases hn hns hxg).1 hxw with hw | hw | hw
    exacts [⟨hxg, hw⟩, absurd hw hne, by omega]
  have hinner : ∀ x ∈ inner, x ∈ g.nodes ∧ 2 * (pre.length + 1) ≤ weight (nests g) x := by
    intro x hx
    obtain ⟨hxg, hxw⟩ := (h.mem_iff x).1 (List.mem_append_right _ (List.mem_cons_of_mem _ hx))
    obtain ⟨hne, hle, -⟩ := hain x hx
    rcases (Nested.weight_cases hn hns hxg).1 hxw with hw | hw | hw
    exacts [by omega, absurd hw.symm hne, ⟨hxg, hw⟩]
  have hmem : ∀ x ∈ g.nodes, 2 * pre.length ≤ weight (nests g) x → x ∈ here ∨ x = a.loop ∨ x ∈ inner := by
    intro x hxg hxw
    simpa using (h.mem_iff x).2 ⟨hxg, hxw⟩
  refine ⟨here, inner, rfl, (topological_layerGraph_iff hg hn.acyclic).2 ⟨?_, fun x => ⟨hhere x, ?_⟩⟩, hi, fun x =>
    ⟨hinner x, ?_⟩⟩
  · exact hh.imp (fun hxy => ⟨hxy.1, hxy.2.2⟩)
  · rintro ⟨hxg, hxw⟩
    rcases hmem x hxg (by omega) with hx | rfl | hx
    · exact hx
    · omega
    · have := (hinner x hx).2
      omega
  · rintro ⟨hxg, hxw⟩
    rcases hmem x hxg (by omega) with hx | rfl | hx
    · have := (hhere x hx).2
      omega
    · omega
    · exact hx

/-- A layer, a loop and the next stage make a stage. -/
theorem Stage.of_layer {here inner : List Node} (hhere : (layerGraph g (nests g) pre.length).Topological here)
    (hinner : Stage g (pre.length + 1) inner) : Stage g pre.length (here ++ a.loop :: inner) := by
  have hwa := Nested.weight_loop hns hn
  have hag := (isLoop_of_nests hns).1
  obtain ⟨hpw, hmem⟩ := (topological_layerGraph_iff hg hn.acyclic).1 hhere
  -- an edge never leads to a lighter node
  have hup : ∀ {x y}, weight (nests g) x < weight (nests g) y →
      x ≠ y ∧ weight (nests g) x ≤ weight (nests g) y ∧ ¬ g.Edge y x := by
    intro x y hlt
    refine ⟨fun h => by rw [h] at hlt; exact Nat.lt_irrefl _ hlt, Nat.le_of_lt hlt, fun he => ?_⟩
    have := weight_mono_of_edge hg hn.acyclic he
    omega
  refine ⟨List.pairwise_append.2 ⟨?_, List.pairwise_cons.2 ⟨fun y hy => hup ?_, hinner.sorted⟩, ?_⟩, fun x => ?_⟩
  · refine hpw.imp_of_mem ?_
    intro x y hx hy hxy
    have h1 := ((hmem x).1 hx).2
    have h2 := ((hmem y).1 hy).2
    exact ⟨hxy.1, by omega, hxy.2⟩
  · have := ((hinner.mem_iff y).1 hy).2
    omega
  · intro x hx y hy
    have hxw := ((hmem x).1 hx).2
    rcases List.mem_cons.1 hy with rfl | hy
    · exact hup (by omega)
    · have := ((hinner.mem_iff y).1 hy).2
      exact hup (by omega)
  · rw [List.mem_append, List.mem_cons, hmem, hinner.mem_iff]
    constructor
    · rintro (⟨hx, hw⟩ | rfl | ⟨hx, hw⟩)
      · exact ⟨hx, by omega⟩
      · exact ⟨hag, by omega⟩
      · exact ⟨hx, by omega⟩
    · rintro ⟨hx, hw⟩
      exact ((Nested.weight_cases hn hns hx).1 hw).imp (⟨hx, ·⟩) (Or.imp_right (⟨hx, ·⟩))

/-- **A stage is a layer, a loop and the next stage.** -/
theorem stage_iff {o : List Node} : Stage g pre.length o ↔ ∃ here inner, o = here ++ a.loop :: inner ∧
    (layerGraph g (nests g) pre.length).Topological here ∧ Stage g (pre.length + 1) inner := by
  refine ⟨Stage.exists_layer hg hn hns, ?_⟩
  rintro ⟨here, inner, rfl, hhere, hinner⟩
  exact Stage.of_layer hg hn hns hhere hinner

end

/-- **The layered orders of the loops from `k` on are the stages at `k`.** -/
theorem layered_iff {g : Graph Node} (hg : g.WellFormed) (hn : Nested g) : ∀ (rest pre : List Nest) (o : List Node),
    nests g = pre ++ rest → (Layered g (nests g) pre.length rest o ↔ Stage g pre.length o)
  | [], pre, o, hns => by
    rw [List.append_nil] at hns
    rw [Layered, ← hns, stage_last_iff hg hn]
  | a :: rest, pre, o, hns => by
    have hlen : (pre ++ [a]).length = pre.length + 1 := by rw [List.length_append]; rfl
    rw [Layered, stage_iff hg hn hns]
    refine exists_congr (fun here => exists_congr (fun inner => and_congr_right (fun _ => and_congr_right (fun _ => ?_))))
    rw [← hlen]
    exact layered_iff hg hn rest (pre ++ [a]) inner (by rw [hns, List.append_assoc]; rfl)

end Flow
end LoopNest
