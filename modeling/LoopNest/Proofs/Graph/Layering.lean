import Mathlib
import LoopNest.Proofs.Graph.Kahn
import LoopNest.Proofs.Graph.Reduction
/-!
# Proofs.Graph.Layering — layers are the lengths of longest paths

A node pushes its children below it when it is placed.  By then its own layer is final, because all its parents were
placed before it, so after each push the nodes placed so far are above their children, and no layer is deeper than they
ask for (`Pushed`).  The nodes that are placed are those that no cycle leads to (`mem_placing`), so in the end this
holds of the edges that start there (`Depths` of `loose`).  Only the lengths of longest paths along them satisfy it
(`Depths.unique`).  Without cycles these are all paths, and transitive reduction keeps the layers: an edge between
neighbouring layers has no way around it.
-/
namespace LoopNest
namespace Graph

variable {α : Type} {g : Graph α} {layer : α → Nat}

/-- **Depths of the nodes**: every edge leads deeper, and no node is deeper than one of its edges asks for. -/
structure Depths (g : Graph α) (layer : α → Nat) : Prop where
  deeper : ∀ {u v}, g.Edge u v → layer u < layer v
  tight : ∀ {v}, 0 < layer v → ∃ u, g.Edge u v ∧ layer u + 1 = layer v

theorem Depths.path_lt (h : g.Depths layer) {u v : α} (hp : g.Path u v) : layer u < layer v := by
  induction hp with
  | single he => exact h.deeper he
  | tail _ he ih => exact Nat.lt_trans ih (h.deeper he)

/-- A node is in the first layer exactly if no edge pushes it. -/
theorem Depths.eq_zero_iff (h : g.Depths layer) {n : α} : layer n = 0 ↔ ∀ p, ¬ g.Edge p n := by
  constructor
  · intro hn p he
    have := h.deeper he
    omega
  · intro hnone
    by_contra hn
    obtain ⟨p, he, -⟩ := h.tight (Nat.pos_of_ne_zero hn)
    exact hnone p he

variable [DecidableEq α]

/-! ## Pushing -/

/-- The layers after the children of `n` were pushed below it. -/
def raise (g : Graph α) (layer : α → Nat) (n x : α) : Nat :=
  if x ∈ g.children n then max (layer x) (layer n + 1) else layer x

theorem le_raise (g : Graph α) (layer : α → Nat) (n x : α) : layer x ≤ g.raise layer n x := by
  unfold raise
  split <;> omega

theorem raise_of_edge {n x : α} (h : g.Edge n x) : g.raise layer n x = max (layer x) (layer n + 1) :=
  if_pos (mem_children.2 h)

theorem raise_of_not_edge {n x : α} (h : ¬ g.Edge n x) : g.raise layer n x = layer x :=
  if_neg fun hx => h (mem_children.1 hx)

theorem pushBelow_map {ns : List α} {n : α} (hn : n ∈ ns) :
    g.pushBelow (ns.map (fun x => (x, layer x))) n = ns.map (fun x => (x, g.raise layer n x)) := by
  unfold pushBelow
  rw [lookup_map, if_pos hn, List.map_map]
  refine List.map_congr_left fun x _ => ?_
  unfold raise
  by_cases hx : x ∈ g.children n <;> simp [hx]

theorem foldl_pushBelow_map {ns : List α} : ∀ (o : List α) (layer : α → Nat), (∀ n ∈ o, n ∈ ns) →
    o.foldl g.pushBelow (ns.map (fun x => (x, layer x))) = ns.map (fun x => (x, o.foldl g.raise layer x))
  | [], _, _ => rfl
  | n :: o, layer, ho => by
    rw [List.foldl_cons, pushBelow_map (ho n List.mem_cons_self), foldl_pushBelow_map o _ fun m hm =>
      ho m (List.mem_cons_of_mem _ hm)]
    rfl

/-- **What the nodes placed so far have done**: each is above its children, and only they have pushed. -/
structure Pushed (g : Graph α) (done : List α) (layer : α → Nat) : Prop where
  deeper : ∀ {p c}, p ∈ done → g.Edge p c → layer p < layer c
  tight : ∀ {c}, 0 < layer c → ∃ p ∈ done, g.Edge p c ∧ layer p + 1 = layer c

/-- **One node pushes its children**, and moves none of the nodes that have pushed. -/
theorem Pushed.step {done : List α} {n : α} (h : g.Pushed done layer) (hn : ∀ p ∈ done ++ [n], ¬ g.Edge n p) :
    g.Pushed (done ++ [n]) (g.raise layer n) := by
  have hstay : ∀ {p}, p ∈ done ++ [n] → g.raise layer n p = layer p := fun hp => raise_of_not_edge (hn _ hp)
  refine ⟨fun {p c} hp hpc => ?_, fun {c} hc => ?_⟩
  · rw [hstay hp]
    rcases List.mem_append.1 hp with hp | hp
    · exact Nat.lt_of_lt_of_le (h.deeper hp hpc) (g.le_raise layer n c)
    · rw [List.mem_singleton.1 hp] at hpc ⊢
      rw [raise_of_edge hpc]
      omega
  · -- the layer of `c` is the old one, or the one that `n` asks for
    have hcase : g.raise layer n c = layer c ∨ g.Edge n c ∧ layer n + 1 = g.raise layer n c := by
      by_cases he : g.Edge n c
      · rw [raise_of_edge he]
        rcases Nat.le_total (layer c) (layer n + 1) with hle | hle
        · exact Or.inr ⟨he, (Nat.max_eq_right hle).symm⟩
        · exact Or.inl (Nat.max_eq_left hle)
      · exact Or.inl (raise_of_not_edge he)
    rcases hcase with hold | ⟨he, hnew⟩
    · rw [hold] at hc ⊢
      obtain ⟨p, hp, hpc, htight⟩ := h.tight hc
      have hp := List.mem_append_left [n] hp
      exact ⟨p, hp, hpc, by rw [hstay hp, htight]⟩
    · have hp : n ∈ done ++ [n] := List.mem_append_right _ List.mem_cons_self
      exact ⟨n, hp, he, by rw [hstay hp, hnew]⟩

/-- **Nodes that come in topological order push their children below them.** -/
theorem Pushed.run : ∀ (rest : List α) {done : List α} {layer : α → Nat}, g.Pushed done layer →
    (done ++ rest).Pairwise (fun x y => ¬ g.Edge y x) → (∀ x ∈ rest, ¬ g.Edge x x) →
    g.Pushed (done ++ rest) (rest.foldl g.raise layer)
  | [], done, _, h, _, _ => by rw [List.append_nil]; exact h
  | n :: rest, done, _, h, hforward, hloop => by
    have hsplit : done ++ n :: rest = (done ++ [n]) ++ rest := by rw [List.append_assoc, List.singleton_append]
    rw [hsplit] at hforward ⊢
    refine Pushed.run rest (h.step fun p hp => ?_) hforward fun x hx => hloop x (List.mem_cons_of_mem _ hx)
    rcases List.mem_append.1 hp with hp | hp
    · exact (List.pairwise_append.1 (List.pairwise_append.1 hforward).1).2.2 p hp n List.mem_cons_self
    · rw [List.mem_singleton.1 hp]
      exact hloop n List.mem_cons_self

/-! ## Nodes that are never ready -/

/-- **Whether a node is on a cycle or behind one.** -/
def caught (g : Graph α) (n : α) : Bool := g.nodes.any (fun c => g.reaches c c && g.reaches c n)

theorem WellFormed.caught_iff (hg : g.WellFormed) {n : α} : g.caught n = true ↔ ∃ c, g.Path c c ∧ g.Path c n := by
  simp only [caught, List.any_eq_true, Bool.and_eq_true, reaches_iff]
  constructor
  · rintro ⟨c, -, h⟩
    exact ⟨c, h⟩
  · rintro ⟨c, h⟩
    exact ⟨c, hg.path_start h.1, h⟩

theorem WellFormed.caught_of_edge (hg : g.WellFormed) {p n : α} (hp : g.caught p = true) (h : g.Edge p n) :
    g.caught n = true := by
  obtain ⟨c, hcycle, hcp⟩ := hg.caught_iff.1 hp
  exact hg.caught_iff.2 ⟨c, hcycle, hcp.trans h.path⟩

/-- **Exactly the nodes that no cycle leads to are placed.** -/
theorem WellFormed.mem_placing (hg : g.WellFormed) (ahead : α → α → Bool) {n : α} :
    n ∈ g.placing ahead ↔ n ∈ g.nodes ∧ g.caught n = false := by
  have hdrains := hg.drains_placing ahead
  obtain ⟨hforward, hloop⟩ := hdrains.forward hg.remains_agenda
  have hmem : ∀ {n}, n ∈ g.nodes → (n ∈ g.placing ahead ↔ ∀ p, g.Edge p n → p ∈ g.placing ahead) := by
    intro n hn
    rw [hdrains.mem_iff hg.remains_agenda (by rwa [keys_agenda]), keys_agenda]
    exact ⟨fun h p he => h p (hg.start_mem he) he, fun h p _ he => h p he⟩
  have hnode : ∀ {n}, n ∈ g.placing ahead → n ∈ g.nodes := fun hn => by
    rw [← keys_agenda g]
    exact hdrains.subset_keys _ hn
  constructor
  · intro hn
    refine ⟨hnode hn, Bool.eq_false_iff.2 fun hcaught => ?_⟩
    -- what leads to a placed node was placed before it, and nothing is placed before itself
    have hbefore : ∀ {u v}, g.Path u v → v ∈ g.placing ahead → u ∈ g.placing ahead ∧
        (g.placing ahead).idxOf u < (g.placing ahead).idxOf v := by
      intro u v hpath
      have hedge : ∀ {u v}, g.Edge u v → v ∈ g.placing ahead → u ∈ g.placing ahead ∧
          (g.placing ahead).idxOf u < (g.placing ahead).idxOf v := by
        intro u v he hv
        have hu := (hmem (hnode hv)).1 hv u he
        refine ⟨hu, idxOf_lt_of_pairwise hforward hu hv ?_ fun h => h he⟩
        rintro rfl
        exact hloop _ hu he
      induction hpath with
      | single he => exact hedge he
      | tail _ he ih =>
        intro hv
        obtain ⟨hm, hlt⟩ := hedge he hv
        exact ⟨(ih hm).1, Nat.lt_trans (ih hm).2 hlt⟩
    obtain ⟨c, hcycle, hcn⟩ := hg.caught_iff.1 hcaught
    exact Nat.lt_irrefl _ (hbefore hcycle (hbefore hcn hn).1).2
  · rintro ⟨hn, hfree⟩
    -- a parent that no cycle leads to has fewer nodes before it
    induction hk : g.nodes.countP (fun a => g.reaches a n) using Nat.strongRecOn generalizing n with
    | ind k ih =>
      subst hk
      refine (hmem hn).2 fun p he => ?_
      have hp : g.caught p = false := by
        rw [← Bool.not_eq_true] at hfree ⊢
        exact fun h => hfree (hg.caught_of_edge h he)
      refine ih _ (hg.countP_lt he fun hcycle => ?_) (hg.start_mem he) hp rfl
      rw [hg.caught_iff.2 ⟨p, hcycle, hcycle⟩] at hp
      cases hp

/-- **The graph without the edges that start on a cycle or behind one.** -/
def loose (g : Graph α) : Graph α := ⟨g.nodes, g.edges.filter (fun e => !g.caught e.1)⟩

theorem edge_loose {u v : α} : g.loose.Edge u v ↔ g.Edge u v ∧ g.caught u = false := by
  simp [loose, Edge]

theorem Acyclic.loose_eq (ha : g.Acyclic) : g.loose = g := by
  have hfree : ∀ n, g.caught n = false := by
    intro n
    rw [caught, List.any_eq_false]
    intro c _ hc
    rw [Bool.and_eq_true, reaches_iff] at hc
    exact ha c hc.1
  simp [loose, hfree]

/-- **The layers are depths along the edges of the nodes that are placed.** -/
theorem WellFormed.exists_depths_loose (hg : g.WellFormed) :
    ∃ layer, g.loose.Depths layer ∧ g.layers = g.nodes.map (fun n => (n, layer n)) := by
  obtain ⟨hforward, hloop⟩ := (hg.drains_placing (fun _ _ => false)).forward hg.remains_agenda
  have hstart : g.Pushed [] (fun _ => 0) := ⟨(fun hp _ => by cases hp), fun hc => absurd hc (Nat.lt_irrefl 0)⟩
  have hend := hstart.run (g.placing (fun _ _ => false)) hforward hloop
  refine ⟨_, ⟨fun he => ?_, fun hv => ?_⟩, foldl_pushBelow_map _ _ fun n hn => ((hg.mem_placing _).1 hn).1⟩
  · obtain ⟨he, hfree⟩ := edge_loose.1 he
    exact hend.deeper ((hg.mem_placing _).2 ⟨hg.start_mem he, hfree⟩) he
  · obtain ⟨u, hu, he, hlayer⟩ := hend.tight hv
    exact ⟨u, edge_loose.2 ⟨he, ((hg.mem_placing _).1 hu).2⟩, hlayer⟩

theorem WellFormed.exists_depths (hg : g.WellFormed) (ha : g.Acyclic) :
    ∃ layer, g.Depths layer ∧ g.layers = g.nodes.map (fun n => (n, layer n)) := by
  have hdepths := hg.exists_depths_loose
  rwa [ha.loose_eq] at hdepths

/-- **Transitive reduction keeps depths**: between neighbouring layers there is nothing on the way. -/
theorem Depths.reduce (h : g.Depths layer) (hg : g.WellFormed) : g.reduce.2.Depths layer := by
  refine ⟨fun he => h.deeper (hg.edge_reduce.1 he).1, fun {v} hv => ?_⟩
  obtain ⟨u, he, hlayer⟩ := h.tight hv
  refine ⟨u, hg.edge_reduce.2 ⟨he, ?_⟩, hlayer⟩
  rintro ⟨m, hum, -, -, hmv⟩
  have h1 := h.deeper hum
  have h2 := h.path_lt hmv
  omega

/-! ## Longest paths -/

/-- **A path that ends at `n`**: nodes of which each has an edge to the next, the last one being `n`. -/
structure PathTo (g : Graph α) (p : List α) (n : α) : Prop where
  chain : p.IsChain (fun u v => g.hasEdge u v = true)
  last : p.getLast? = some n

theorem Depths.add_length_le (h : g.Depths layer) {n : α} : ∀ (p : List α) (a : α), g.PathTo (a :: p) n →
    layer a + p.length ≤ layer n
  | [], a, hp => by
    obtain rfl : a = n := by simpa using hp.last
    exact Nat.le_refl _
  | b :: p, a, hp => by
    obtain ⟨he, hchain⟩ := List.isChain_cons_cons.1 hp.chain
    have hlast : (b :: p).getLast? = some n := by rw [← hp.last, List.getLast?_cons_cons]
    have hlt := h.deeper (hasEdge_iff.1 he)
    have ih := h.add_length_le p b ⟨hchain, hlast⟩
    rw [List.length_cons]
    omega

theorem Depths.length_le (h : g.Depths layer) {n : α} {p : List α} (hp : g.PathTo p n) : p.length ≤ layer n + 1 := by
  cases p with
  | nil => exact Nat.zero_le _
  | cons a p =>
    have := h.add_length_le p a hp
    rw [List.length_cons]
    omega

theorem Depths.exists_path (h : g.Depths layer) : ∀ (k : Nat) {n : α}, layer n = k →
    ∃ p, g.PathTo p n ∧ p.length = k + 1
  | 0, n, _ => ⟨[n], ⟨List.isChain_singleton n, rfl⟩, rfl⟩
  | k + 1, n, hn => by
    obtain ⟨u, he, hu⟩ := h.tight (v := n) (by omega)
    obtain ⟨p, hp, hlen⟩ := h.exists_path k (n := u) (by omega)
    refine ⟨p ++ [n], ⟨List.isChain_append.2 ⟨hp.chain, List.isChain_singleton n, ?_⟩, List.getLast?_concat ..⟩, ?_⟩
    · intro x hx y hy
      obtain rfl : u = x := Option.some.inj (hp.last.symm.trans hx)
      obtain rfl : n = y := by simpa using hy
      exact hasEdge_iff.2 he
    · rw [List.length_append, hlen]
      rfl

/-- **There is one way to lay out a graph**: a depth is the length of a longest path. -/
theorem Depths.unique {layer' : α → Nat} (h : g.Depths layer) (h' : g.Depths layer') : layer = layer' := by
  have hle : ∀ {l l' : α → Nat}, g.Depths l → g.Depths l' → ∀ n, l n ≤ l' n := by
    intro l l' hl hl' n
    obtain ⟨p, hp, hlen⟩ := hl.exists_path (l n) rfl
    have := hl'.length_le hp
    omega
  exact funext fun n => Nat.le_antisymm (hle h h' n) (hle h' h n)

/-- **Layers are the lengths of longest paths, and survive transitive reduction.**  In a graph without cycles the layer
of a node is the number of edges of a longest path that ends there.  So every edge leads to a deeper layer, and a node
that is not in the first layer has a parent in the layer before its own.  After transitive reduction every node is in
the layer in which it was before. -/
theorem layers_longest (hg : g.Built) (ha : g.Acyclic) : ∃ layer : α → Nat,
    g.layers = g.nodes.map (fun n => (n, layer n)) ∧
    (∀ n ∈ g.nodes, (∃ p, g.PathTo p n ∧ p.length = layer n + 1) ∧ ∀ p, g.PathTo p n → p.length ≤ layer n + 1) ∧
    (∀ u v, g.hasEdge u v = true → layer u < layer v) ∧
    (∀ n ∈ g.nodes, 0 < layer n → ∃ p ∈ g.parents n, layer p + 1 = layer n) ∧
    g.reduce.2.layers = g.layers := by
  have hw := hg.wellFormed
  obtain ⟨layer, hd, hlayers⟩ := hw.exists_depths ha
  obtain ⟨layer', hd', hlayers'⟩ := hw.reduce.exists_depths ((hw.samePaths_reduce ha).acyclic_iff.2 ha)
  refine ⟨layer, hlayers, fun n _ => ⟨hd.exists_path _ rfl, fun p hp => hd.length_le hp⟩,
    fun u v he => hd.deeper (hasEdge_iff.1 he), fun n _ hn => ?_, ?_⟩
  · obtain ⟨u, he, hu⟩ := hd.tight hn
    exact ⟨u, mem_parents.2 he, hu⟩
  · rw [hlayers, hlayers', hd'.unique (hd.reduce hw), nodes_reduce]

/-- The last node of a ladder is pushed to the first layer below the top and then, by its other parent, to the last. -/
theorem layers_longest_ladder : ladder.Built ∧ ladder.Acyclic ∧ ladder.layers = [(1, 0), (2, 1), (3, 2), (4, 3)] ∧
    ladder.reduce.1 = 2 ∧ ladder.reduce.2.layers = ladder.layers := by
  have hb : ladder.Built := ⟨_, rfl⟩
  obtain ⟨-, -, -, -, -, hreduce⟩ := layers_longest hb acyclic_ladder
  exact ⟨hb, acyclic_ladder, by cbv, by cbv, hreduce⟩

/-! ## Layers on and behind cycles -/

theorem isChain_loose : ∀ {p : List α}, p.IsChain (fun u v => g.loose.hasEdge u v = true) ↔
    p.IsChain (fun u v => g.hasEdge u v = true) ∧ ∀ m ∈ p.dropLast, g.caught m = false
  | [] => by simp
  | [a] => by simp
  | a :: b :: p => by
    rw [List.isChain_cons_cons, List.isChain_cons_cons, isChain_loose, hasEdge_iff, edge_loose, hasEdge_iff,
      List.dropLast_cons_cons, List.forall_mem_cons]
    tauto

theorem pathTo_loose {p : List α} {n : α} :
    g.loose.PathTo p n ↔ g.PathTo p n ∧ ∀ m ∈ p.dropLast, g.caught m = false :=
  ⟨fun h => ⟨⟨(isChain_loose.1 h.chain).1, h.last⟩, (isChain_loose.1 h.chain).2⟩,
    fun h => ⟨isChain_loose.2 ⟨h.1.chain, h.2⟩, h.1.last⟩⟩

/-- **The layers of a graph with cycles.**  The layer of a node is the number of edges of a longest path that ends there
and has no node on a cycle or behind one before its end.  So a node that is on a cycle is in the first layer exactly if
each of its parents is on a cycle or behind one: any other parent pushes it down. -/
theorem layers_on_cycles (hg : g.Built) : ∃ layer : α → Nat,
    g.layers = g.nodes.map (fun n => (n, layer n)) ∧
    (∀ n ∈ g.nodes, (∃ p, g.PathTo p n ∧ (∀ m ∈ p.dropLast, g.caught m = false) ∧ p.length = layer n + 1) ∧
      ∀ p, g.PathTo p n → (∀ m ∈ p.dropLast, g.caught m = false) → p.length ≤ layer n + 1) ∧
    ∀ n ∈ g.nodes, g.reaches n n = true → (layer n = 0 ↔ ∀ p ∈ g.parents n, g.caught p = true) := by
  have hw := hg.wellFormed
  obtain ⟨layer, hd, hlayers⟩ := hw.exists_depths_loose
  refine ⟨layer, hlayers, fun n _ => ⟨?_, fun p hp hfree => hd.length_le (pathTo_loose.2 ⟨hp, hfree⟩)⟩, fun n _ _ => ?_⟩
  · obtain ⟨p, hp, hlen⟩ := hd.exists_path (layer n) rfl
    obtain ⟨hp, hfree⟩ := pathTo_loose.1 hp
    exact ⟨p, hp, hfree, hlen⟩
  · rw [hd.eq_zero_iff]
    simp only [edge_loose, mem_parents, not_and, Bool.not_eq_false]

/-- A cycle of two nodes, one of which has a parent outside. -/
def fed : Graph Nat := run [.addEdge 1 2, .addEdge 2 3, .addEdge 3 2]

/-- **A node on a cycle can leave the first layer**: its parent outside pushes it down, although it is never ready. -/
theorem layers_fed : fed.Built ∧ fed.reaches 2 2 = true ∧ fed.layers = [(1, 0), (2, 1), (3, 0)] :=
  ⟨⟨_, rfl⟩, by cbv, by cbv⟩

/-- The other node of this cycle has no parent but the first one, which is caught, and stays in the first layer. -/
theorem layers_on_cycles_fed : fed.Built ∧ fed.reaches 3 3 = true ∧ ∃ layer : Nat → Nat,
    fed.layers = fed.nodes.map (fun n => (n, layer n)) ∧ layer 3 = 0 ∧ layer 2 ≠ 0 := by
  have hb : fed.Built := ⟨_, rfl⟩
  have htwo : fed.reaches 2 2 = true := by cbv
  have hthree : fed.reaches 3 3 = true := by cbv
  have hparents : fed.parents 3 = [2] := by cbv
  have hcaught : fed.caught 2 = true := by cbv
  have hfirst : fed.caught 1 = false := by cbv
  obtain ⟨layer, hlayers, -, hzero⟩ := layers_on_cycles hb
  refine ⟨hb, hthree, layer, hlayers, (hzero 3 (by decide) hthree).2 ?_, fun h => ?_⟩
  · rw [hparents]
    exact List.forall_mem_singleton.2 hcaught
  · rw [(hzero 2 (by decide) htwo).1 h 1 (by decide)] at hfirst
    cases hfirst

end Graph
end LoopNest
