import Mathlib
import LoopNest.Proofs.Graph.Topological
/-!
# Proofs.Graph.Reduction — graphs with the same nodes and the same paths

Such graphs have the same topological orders (`Topological.of_samePaths`), whichever edges make the paths.  Transitive
reduction leaves a graph of this kind when there are no cycles (`WellFormed.samePaths_reduce`): an edge that is dropped
has a node between its ends, so what it is replaced by is shorter in any topological order.  The edges that are left are
the pairs with nothing between them (`WellFormed.edge_reduce_iff_covers`), which the paths alone tell.
-/
namespace LoopNest
namespace Graph

variable {α : Type}

/-- **The same nodes, added in the same order, and the same paths.** -/
structure SamePaths (g h : Graph α) : Prop where
  nodes_eq : g.nodes = h.nodes
  path_iff : ∀ u v, g.Path u v ↔ h.Path u v

theorem SamePaths.symm {g h : Graph α} (hs : g.SamePaths h) : h.SamePaths g :=
  ⟨hs.nodes_eq.symm, fun u v => (hs.path_iff u v).symm⟩

theorem Path.of_edges {g h : Graph α} (hedge : ∀ u v, g.Edge u v → h.Path u v) {u v : α} (hp : g.Path u v) :
    h.Path u v := by
  induction hp with
  | single he => exact hedge _ _ he
  | tail _ he ih => exact ih.trans (hedge _ _ he)

theorem samePaths_of_edges {g h : Graph α} (hn : g.nodes = h.nodes) (hgh : ∀ u v, g.Edge u v → h.Path u v)
    (hhg : ∀ u v, h.Edge u v → g.Path u v) : g.SamePaths h :=
  ⟨hn, fun _ _ => ⟨Path.of_edges hgh, Path.of_edges hhg⟩⟩

theorem SamePaths.acyclic_iff {g h : Graph α} (hs : g.SamePaths h) : g.Acyclic ↔ h.Acyclic :=
  forall_congr' fun n => not_congr (hs.path_iff n n)

/-- **`v` covers `u`**: there is a path from `u` to `v`, and no node between them. -/
def Covers (g : Graph α) (u v : α) : Prop := g.Path u v ∧ ¬ ∃ m, g.Path u m ∧ g.Path m v

theorem covers_congr {g h : Graph α} (hpath : ∀ u v, g.Path u v ↔ h.Path u v) {u v : α} :
    g.Covers u v ↔ h.Covers u v := by
  simp only [Covers, hpath]

theorem Covers.edge {g : Graph α} {u v : α} (h : g.Covers u v) : g.Edge u v := by
  obtain ⟨w, huw, hwv⟩ := Relation.TransGen.head'_iff.1 h.1
  rcases Relation.reflTransGen_iff_eq_or_transGen.1 hwv with rfl | hwv
  · exact huw
  · exact absurd ⟨w, huw.path, hwv⟩ h.2

variable [DecidableEq α]

theorem SamePaths.descendants_perm {g h : Graph α} (hs : g.SamePaths h) (a : α) :
    (g.descendants a).Perm (h.descendants a) := by
  refine (List.perm_ext_iff_of_nodup (nodup_descendants g a) (nodup_descendants h a)).2 fun x => ?_
  rw [mem_descendants, mem_descendants, hs.path_iff]

/-- **The topological orders are told by the paths.** -/
theorem Topological.of_samePaths {g h : Graph α} (hg : g.WellFormed) (hs : g.SamePaths h) {o : List α}
    (ho : g.Topological o) : h.Topological o := by
  have hnd := ho.nodup hg
  refine ⟨hs.nodes_eq ▸ ho.perm, ?_, fun x hx => ho.acyclic hg x ((hs.path_iff x x).2 hx.path)⟩
  rw [List.pairwise_iff_getElem]
  intro i j hi hj hij he
  have hlt := ho.path_lt hg ((hs.path_iff _ _).2 he.path)
  rw [hnd.idxOf_getElem, hnd.idxOf_getElem] at hlt
  omega

/-! ## Transitive reduction -/

theorem mem_shortcuts {g : Graph α} {u v : α} :
    v ∈ g.shortcuts u ↔ g.Edge u v ∧ ∃ m, g.Edge u m ∧ m ≠ v ∧ m ≠ u ∧ g.Path m v := by
  unfold shortcuts
  simp only [List.mem_filter, List.any_map, List.any_eq_true, Function.comp_apply, Bool.and_eq_true, decide_eq_true_eq,
    mem_children, mem_descendants, and_assoc]

theorem WellFormed.mem_spareEdges {g : Graph α} (hg : g.WellFormed) {u v : α} :
    (u, v) ∈ g.spareEdges ↔ v ∈ g.shortcuts u := by
  simp only [spareEdges, List.mem_flatMap, List.mem_map, Prod.mk.injEq]
  constructor
  · rintro ⟨u', -, v', hv', rfl, rfl⟩
    exact hv'
  · intro h
    exact ⟨u, hg.start_mem (mem_shortcuts.1 h).1, v, h, rfl, rfl⟩

theorem WellFormed.nodup_spareEdges {g : Graph α} (hg : g.WellFormed) : g.spareEdges.Nodup := by
  refine List.nodup_flatMap.2 ⟨fun u _ => ?_, hg.nodup_nodes.imp ?_⟩
  · exact ((hg.nodup_children u).filter _).map (fun a b h => (Prod.mk.inj h).2)
  · intro u u' hne e he he'
    obtain ⟨v, -, rfl⟩ := List.mem_map.1 he
    obtain ⟨v', -, heq⟩ := List.mem_map.1 he'
    exact hne (Prod.mk.inj heq).1.symm

theorem nodes_reduce (g : Graph α) : g.reduce.2.nodes = g.nodes := nodes_removeEdges _ g

/-- **The edges that are left** have no other child of their start on the way to their end. -/
theorem WellFormed.edge_reduce {g : Graph α} (hg : g.WellFormed) {u v : α} :
    g.reduce.2.Edge u v ↔ g.Edge u v ∧ ¬ ∃ m, g.Edge u m ∧ m ≠ v ∧ m ≠ u ∧ g.Path m v := by
  unfold Graph.reduce
  rw [edge_removeEdges, hg.mem_spareEdges, mem_shortcuts]
  exact and_congr_right fun he => not_congr ⟨And.right, fun h => ⟨he, h⟩⟩

/-! ## The number of edges -/

theorem WellFormed.edgeCount_removeEdge {g : Graph α} (hg : g.WellFormed) {u v : α} (h : g.Edge u v) :
    g.edgeCount = (g.removeEdge u v).edgeCount + 1 := by
  have hmem : (u, v) ∈ g.edges := h
  have hpos := List.length_pos_of_mem hmem
  unfold edgeCount Graph.removeEdge
  dsimp only
  rw [Agenda.length_filter_ne hg.nodup_edges, if_pos hmem]
  omega

/-- Each of different edges that is removed is one less. -/
theorem WellFormed.edgeCount_removeEdges : ∀ (es : List (α × α)) {g : Graph α}, g.WellFormed → es.Nodup →
    (∀ e ∈ es, g.Edge e.1 e.2) → g.edgeCount = (g.removeEdges es).edgeCount + es.length
  | [], _, _, _, _ => rfl
  | e :: es, g, hg, hnd, hes => by
    obtain ⟨he, hnd⟩ := List.nodup_cons.1 hnd
    have hstep := hg.edgeCount_removeEdge (hes e List.mem_cons_self)
    have hrest := (hg.removeEdge e.1 e.2).edgeCount_removeEdges es hnd fun f hf => by
      have hne : f ≠ e := by rintro rfl; exact he hf
      exact edge_removeEdge.2 ⟨hes f (List.mem_cons_of_mem _ hf), hne⟩
    rw [show g.removeEdges (e :: es) = (g.removeEdge e.1 e.2).removeEdges es from rfl, List.length_cons]
    omega

theorem WellFormed.edgeCount_reduce {g : Graph α} (hg : g.WellFormed) :
    g.edgeCount = g.reduce.2.edgeCount + g.reduce.1 := by
  refine hg.edgeCount_removeEdges _ hg.nodup_spareEdges fun e he => ?_
  exact (mem_shortcuts.1 (hg.mem_spareEdges.1 he)).1

/-! ## The same paths -/

/-- A path has an edge that is left, or a node between its ends. -/
theorem WellFormed.edge_reduce_or_between {g : Graph α} (hg : g.WellFormed) {u v : α} (h : g.Path u v) :
    g.reduce.2.Edge u v ∨ ∃ m, g.Path u m ∧ g.Path m v := by
  obtain ⟨w, huw, hwv⟩ := Relation.TransGen.head'_iff.1 h
  rcases Relation.reflTransGen_iff_eq_or_transGen.1 hwv with rfl | hwv
  · by_cases hm : ∃ m, g.Edge u m ∧ m ≠ v ∧ m ≠ u ∧ g.Path m v
    · obtain ⟨m, hum, -, -, hmv⟩ := hm
      exact Or.inr ⟨m, hum.path, hmv⟩
    · exact Or.inl (hg.edge_reduce.2 ⟨huw, hm⟩)
  · exact Or.inr ⟨w, huw.path, hwv⟩

/-- **Without cycles, transitive reduction keeps what reaches what.** -/
theorem WellFormed.samePaths_reduce {g : Graph α} (hg : g.WellFormed) (ha : g.Acyclic) : g.reduce.2.SamePaths g := by
  obtain ⟨o, ho⟩ := hg.exists_topological_iff.2 ha
  -- by induction on how far the ends of a path are apart in a topological order
  have hkept : ∀ (k : Nat) (u v : α), o.idxOf v ≤ o.idxOf u + k → g.Path u v → g.reduce.2.Path u v := by
    intro k
    induction k with
    | zero =>
      intro u v hk h
      have := ho.path_lt hg h
      omega
    | succ k ih =>
      intro u v hk h
      rcases hg.edge_reduce_or_between h with he | ⟨m, hum, hmv⟩
      · exact he.path
      · have h1 := ho.path_lt hg hum
        have h2 := ho.path_lt hg hmv
        exact (ih u m (by omega) hum).trans (ih m v (by omega) hmv)
  refine samePaths_of_edges g.nodes_reduce (fun u v h => (hg.edge_reduce.1 h).1.path) fun u v h => ?_
  exact hkept (o.idxOf v) u v (Nat.le_add_left _ _) h.path

/-! ## What is left is needed -/

/-- **Without cycles, the edges that are left are the covers.** -/
theorem WellFormed.edge_reduce_iff_covers {g : Graph α} (hg : g.WellFormed) (ha : g.Acyclic) {u v : α} :
    g.reduce.2.Edge u v ↔ g.Covers u v := by
  constructor
  · intro h
    obtain ⟨he, hno⟩ := hg.edge_reduce.1 h
    refine ⟨he.path, ?_⟩
    rintro ⟨m, hum, hmv⟩
    -- the first node on the way to `m` is another child of `u`, and it reaches `v`
    obtain ⟨w, huw, hwm⟩ := Relation.TransGen.head'_iff.1 hum
    have hwv : g.Path w v := Relation.TransGen.trans_right hwm hmv
    refine hno ⟨w, huw, ?_, ?_, hwv⟩
    · rintro rfl; exact ha w hwv
    · rintro rfl; exact ha w huw.path
  · intro h
    exact (hg.edge_reduce_or_between h.1).resolve_right h.2

/-- A path that does not survive without an edge goes through that edge. -/
theorem Path.removeEdge {g : Graph α} {x y : α} (h : g.Path x y) (u v : α) : (g.removeEdge u v).Path x y ∨
    Relation.ReflTransGen g.Edge x u ∧ Relation.ReflTransGen g.Edge v y := by
  induction h with
  | @single y he =>
    by_cases hxy : (x, y) = (u, v)
    · obtain ⟨rfl, rfl⟩ := Prod.mk.inj hxy
      exact Or.inr ⟨.refl, .refl⟩
    · exact Or.inl (edge_removeEdge.2 ⟨he, hxy⟩).path
  | @tail y z hp he ih =>
    rcases ih with hp' | ⟨hxu, hvy⟩
    · by_cases hyz : (y, z) = (u, v)
      · obtain ⟨rfl, rfl⟩ := Prod.mk.inj hyz
        exact Or.inr ⟨hp.to_reflTransGen, .refl⟩
      · exact Or.inl (hp'.trans (edge_removeEdge.2 ⟨he, hyz⟩).path)
    · exact Or.inr ⟨hxu, hvy.tail he⟩

/-- **Without cycles, an edge can be spared exactly if its end does not cover its start.** -/
theorem Acyclic.path_removeEdge_iff {g : Graph α} (ha : g.Acyclic) {u v : α} (h : g.Edge u v) :
    (g.removeEdge u v).Path u v ↔ ¬ g.Covers u v := by
  constructor
  · rintro hp ⟨-, hno⟩
    obtain ⟨w, huw, hwv⟩ := Relation.TransGen.head'_iff.1 hp
    obtain ⟨huw, hne⟩ := edge_removeEdge.1 huw
    have hwv := Relation.ReflTransGen.mono (fun _ _ h => (edge_removeEdge.1 h).1) _ _ hwv
    rcases Relation.reflTransGen_iff_eq_or_transGen.1 hwv with rfl | hwv
    · exact hne rfl
    · exact hno ⟨w, huw.path, hwv⟩
  · intro hc
    obtain ⟨m, hum, hmv⟩ : ∃ m, g.Path u m ∧ g.Path m v := by
      by_contra hno
      exact hc ⟨h.path, hno⟩
    -- neither half can use the edge itself: it would close a cycle through `m`
    have hfirst : (g.removeEdge u v).Path u m := (hum.removeEdge u v).resolve_right fun ⟨_, hvm⟩ =>
      ha v (Relation.TransGen.trans_right hvm hmv)
    have hsecond : (g.removeEdge u v).Path m v := (hmv.removeEdge u v).resolve_right fun ⟨hmu, _⟩ =>
      ha m (Relation.TransGen.trans_right hmu hum)
    exact hfirst.trans hsecond

theorem Acyclic.needed_iff {g : Graph α} (ha : g.Acyclic) {u v : α} (h : g.Edge u v) :
    (g.removeEdge u v).reaches u v = false ↔ g.Covers u v := by
  rw [← Bool.not_eq_true, reaches_iff, ha.path_removeEdge_iff h, not_not]

theorem WellFormed.hasEdge_reduce_iff {g : Graph α} (hg : g.WellFormed) (ha : g.Acyclic) {u v : α} :
    g.reduce.2.hasEdge u v = true ↔
      g.hasEdge u v = true ∧ ¬ ∃ w ∈ g.children u, w ≠ v ∧ g.reaches w v = true := by
  rw [hasEdge_iff, hasEdge_iff, hg.edge_reduce]
  refine and_congr_right fun _ => not_congr ⟨?_, ?_⟩
  · rintro ⟨w, huw, hne, -, hwv⟩
    exact ⟨w, mem_children.2 huw, hne, reaches_iff.2 hwv⟩
  · rintro ⟨w, huw, hne, hwv⟩
    have huw := mem_children.1 huw
    refine ⟨w, huw, hne, ?_, reaches_iff.1 hwv⟩
    rintro rfl
    exact ha w huw.path

/-- **A graph without spare edges is left as it is.** -/
theorem WellFormed.reduce_eq_self {g : Graph α} (hg : g.WellFormed) (h : ∀ u v, g.Edge u v → g.reduce.2.Edge u v) :
    g.reduce = (0, g) := by
  have hnone : g.spareEdges = [] := by
    rw [List.eq_nil_iff_forall_not_mem]
    intro e he
    have hedge := (mem_shortcuts.1 (hg.mem_spareEdges.1 he)).1
    exact ((edge_removeEdges _ g).1 (h e.1 e.2 hedge)).2 he
  rw [Graph.reduce, hnone]
  rfl

/-- **Transitive reduction gives the one minimal graph with the same paths.**  For a graph without cycles it keeps the
nodes and just those edges whose start has no other child on the way to their end.  What reaches what is unchanged, no
edge that is left can be spared, the number given is that of the edges dropped, and there is nothing more to drop.
Every graph with the same paths has all the edges that are left, and only these if none of its own can be spared. -/
theorem reduce_minimal {g : Graph α} (hg : g.Built) (ha : g.Acyclic) :
    g.reduce.2.nodes = g.nodes ∧
    (∀ u v, g.reduce.2.hasEdge u v = true ↔
      g.hasEdge u v = true ∧ ¬ ∃ w ∈ g.children u, w ≠ v ∧ g.reaches w v = true) ∧
    (∀ u v, g.reduce.2.reaches u v = g.reaches u v) ∧
    (∀ u v, g.reduce.2.hasEdge u v = true → (g.reduce.2.removeEdge u v).reaches u v = false) ∧
    g.edgeCount = g.reduce.2.edgeCount + g.reduce.1 ∧
    g.reduce.2.reduce = (0, g.reduce.2) ∧
    ∀ h : Graph α, (∀ u v, h.reaches u v = g.reaches u v) →
      (∀ u v, g.reduce.2.hasEdge u v = true → h.hasEdge u v = true) ∧
      ((∀ u v, h.hasEdge u v = true → (h.removeEdge u v).reaches u v = false) →
        ∀ u v, h.hasEdge u v = g.reduce.2.hasEdge u v) := by
  have hw := hg.wellFormed
  have hsame := hw.samePaths_reduce ha
  have hra := hsame.acyclic_iff.2 ha
  -- a graph with the same paths has the same covers, which are the edges that are left
  have hleft : ∀ u v, g.reduce.2.Edge u v ↔ g.Covers u v := fun u v => hw.edge_reduce_iff_covers ha
  refine ⟨g.nodes_reduce, fun u v => hw.hasEdge_reduce_iff ha, fun u v => ?_, fun u v he => ?_, hw.edgeCount_reduce, ?_,
    fun h hreach => ?_⟩
  · rw [Bool.eq_iff_iff, reaches_iff, reaches_iff, hsame.path_iff]
  · have he := hasEdge_iff.1 he
    exact (hra.needed_iff he).2 ((covers_congr hsame.path_iff).2 ((hleft u v).1 he))
  · refine hw.reduce.reduce_eq_self fun u v he => ?_
    rw [hw.reduce.edge_reduce_iff_covers hra, covers_congr hsame.path_iff]
    exact (hleft u v).1 he
  · have hpath : ∀ u v, h.Path u v ↔ g.Path u v := fun u v => by rw [← reaches_iff, ← reaches_iff, hreach]
    have hcovers : ∀ {u v}, h.Covers u v ↔ g.Covers u v := covers_congr hpath
    have hha : h.Acyclic := fun n hn => ha n ((hpath n n).1 hn)
    refine ⟨fun u v he => ?_, fun hmin u v => ?_⟩
    · exact hasEdge_iff.2 (hcovers.2 ((hleft u v).1 (hasEdge_iff.1 he))).edge
    · rw [Bool.eq_iff_iff, hasEdge_iff, hasEdge_iff, hleft]
      refine ⟨fun he => ?_, fun hc => (hcovers.2 hc).edge⟩
      exact hcovers.1 ((hha.needed_iff he).1 (hmin u v (hasEdge_iff.2 he)))

/-- Four nodes one after the other, and two edges that skip some. -/
def ladder : Graph Nat := run [.addEdge 1 2, .addEdge 2 3, .addEdge 1 3, .addEdge 3 4, .addEdge 1 4]

theorem acyclic_ladder : ladder.Acyclic := by
  have hw : ladder.WellFormed := Built.wellFormed ⟨_, rfl⟩
  have ho : ladder.Topological [1, 2, 3, 4] := hw.isTopologicalOrder_iff.1 (by decide)
  exact ho.acyclic hw

/-- Both edges that skip nodes are dropped, though one of them is on a way around the other. -/
theorem reduce_minimal_ladder : ladder.Built ∧ ladder.Acyclic ∧
    ladder.reduce = (2, run [.addEdge 1 2, .addEdge 2 3, .addEdge 3 4]) ∧
    ladder.reduce.2.hasEdge 1 4 = false ∧ ladder.reduce.2.reaches 1 4 = true ∧
    (ladder.reduce.2.removeEdge 2 3).reaches 2 3 = false ∧ ladder.reduce.2.reduce.1 = 0 := by
  have hb : ladder.Built := ⟨_, rfl⟩
  have hvalue : ladder.reduce = (2, run [.addEdge 1 2, .addEdge 2 3, .addEdge 3 4]) := by cbv
  obtain ⟨-, -, hreach, hneeded, -, hagain, -⟩ := reduce_minimal hb acyclic_ladder
  refine ⟨hb, acyclic_ladder, hvalue, by rw [hvalue]; decide, ?_, hneeded 2 3 (by rw [hvalue]; decide), by rw [hagain]⟩
  rw [hreach]
  exact reaches_iff.2 (hasEdge_iff.1 (by decide)).path

end Graph
end LoopNest
