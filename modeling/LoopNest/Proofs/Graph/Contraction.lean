import LoopNest.Proofs.Graph.Reach
/-!
# Proofs.Graph.Contraction — contraction keeps exactly the dependencies of the nodes that stay

`PathVia via u v` is a path from `u` to `v` whose inner nodes all satisfy `via`.  While nodes are bypassed one after
the other, an edge of the graph at hand stands for a path of the graph at the start through the nodes bypassed so far
(`Contracted`); one bypass keeps this (`Contracted.bypass`), so all of them do.  Between two different nodes that stay,
contraction therefore has an edge exactly for a path through dropped nodes, and a path exactly where there was one.
-/
namespace LoopNest
namespace Graph

variable {α : Type}

/-- **A path from `u` to `v` all of whose inner nodes satisfy `via`.** -/
inductive PathVia (g : Graph α) (via : α → Prop) : α → α → Prop where
  | edge {u v : α} : g.Edge u v → PathVia g via u v
  | step {u x v : α} : g.Edge u x → via x → PathVia g via x v → PathVia g via u v

namespace PathVia

variable {g : Graph α} {P Q : α → Prop} {u v n : α}

theorem path (h : g.PathVia P u v) : g.Path u v := by
  induction h with
  | edge h => exact h.path
  | step h _ _ ih => exact h.path.trans ih

theorem mono (hPQ : ∀ a x, g.Edge a x → P x → Q x) (h : g.PathVia P u v) : g.PathVia Q u v := by
  induction h with
  | edge h => exact .edge h
  | step h hx _ ih => exact .step h (hPQ _ _ h hx) ih

theorem join (hn : P n) (h : g.PathVia P u n) (h' : g.PathVia P n v) : g.PathVia P u v := by
  induction h with
  | edge h => exact .step h hn h'
  | step h hx _ ih => exact .step h hx (ih hn h')

/-- **A path that may also pass through `n`** does not, or splits at its first and at its last visit there. -/
theorem split (h : g.PathVia (fun x => x = n ∨ P x) u v) :
    g.PathVia P u v ∨ (g.PathVia P u n ∧ g.PathVia P n v) := by
  induction h with
  | edge h => exact Or.inl (.edge h)
  | @step u x v h hx _ ih =>
    rcases hx with rfl | hx
    · exact Or.inr ⟨.edge h, ih.elim id And.right⟩
    · rcases ih with ih | ⟨ih1, ih2⟩
      · exact Or.inl (.step h hx ih)
      · exact Or.inr ⟨.step h hx ih1, ih2⟩

end PathVia

variable [DecidableEq α]

/-! ## One bypass after the other -/

/-- **`h` is what bypassing the nodes of `P` makes of `g`**: none of them has an edge any more; between different
nodes an edge of `h` is a path of `g` through `P`, and a node has a loop where it had one. -/
def Contracted (g : Graph α) (P : α → Prop) (h : Graph α) : Prop :=
  ∀ u v, h.Edge u v ↔ (¬ P u ∧ ¬ P v) ∧ ((u = v ∧ g.Edge u v) ∨ (u ≠ v ∧ g.PathVia P u v))

theorem contracted_self (g : Graph α) : g.Contracted (fun _ => False) g := by
  intro u v
  constructor
  · intro h
    by_cases huv : u = v
    · exact ⟨⟨id, id⟩, Or.inl ⟨huv, h⟩⟩
    · exact ⟨⟨id, id⟩, Or.inr ⟨huv, .edge h⟩⟩
  · rintro ⟨-, ⟨-, h⟩ | ⟨-, h⟩⟩
    · exact h
    · cases h with
      | edge h => exact h
      | step _ hx _ => exact hx.elim

/-- **What one bypass keeps**: the bypassed node joins those that paths may pass through. -/
theorem Contracted.bypass {g h : Graph α} {P : α → Prop} {n : α} (hc : g.Contracted P h) (hn : ¬ P n) :
    g.Contracted (fun x => x = n ∨ P x) (h.bypass n) := by
  intro u v
  have hwide : ∀ {a b}, g.PathVia P a b → g.PathVia (fun x => x = n ∨ P x) a b :=
    fun hab => hab.mono (fun _ _ _ hx => Or.inr hx)
  rw [edge_bypass, hc u v, hc u n, hc n v]
  constructor
  · rintro ⟨⟨hun, hvn⟩, ⟨⟨hu, hv⟩, huv⟩ | ⟨huv, ⟨⟨hu, -⟩, h1⟩, ⟨-, hv⟩, h2⟩⟩ <;>
      refine ⟨⟨not_or.2 ⟨hun, hu⟩, not_or.2 ⟨hvn, hv⟩⟩, ?_⟩
    · exact huv.imp id (fun h => ⟨h.1, hwide h.2⟩)
    · have h1 := (h1.resolve_left (fun h => hun h.1)).2
      have h2 := (h2.resolve_left (fun h => hvn h.1.symm)).2
      exact Or.inr ⟨huv, (hwide h1).join (Or.inl rfl) (hwide h2)⟩
  · rintro ⟨⟨hu, hv⟩, huv⟩
    obtain ⟨hun, hu⟩ := not_or.1 hu
    obtain ⟨hvn, hv⟩ := not_or.1 hv
    refine ⟨⟨hun, hvn⟩, ?_⟩
    rcases huv with ⟨rfl, h⟩ | ⟨huv, h⟩
    · exact Or.inl ⟨⟨hu, hv⟩, Or.inl ⟨rfl, h⟩⟩
    · rcases h.split with h | ⟨h1, h2⟩
      · exact Or.inl ⟨⟨hu, hv⟩, Or.inr ⟨huv, h⟩⟩
      · exact Or.inr ⟨huv, ⟨⟨hu, hn⟩, Or.inr ⟨hun, h1⟩⟩, ⟨hn, hv⟩, Or.inr ⟨Ne.symm hvn, h2⟩⟩

/-- **What a run of bypasses keeps.** -/
theorem Contracted.foldl_bypass {g : Graph α} : ∀ (ns : List α) {h : Graph α} {P : α → Prop}, ns.Nodup →
    (∀ n ∈ ns, ¬ P n) → g.Contracted P h → g.Contracted (fun x => x ∈ ns ∨ P x) (ns.foldl Graph.bypass h)
  | [], h, P, _, _, hc => by
    have hP : (fun x => x ∈ ([] : List α) ∨ P x) = P := by funext x; simp
    rw [hP]; exact hc
  | n :: ns, h, P, hnd, hns, hc => by
    obtain ⟨hn, hnd⟩ := List.nodup_cons.1 hnd
    have hstep := Contracted.foldl_bypass ns hnd (fun m hm => ?_) (hc.bypass (hns n List.mem_cons_self))
    · have hP : (fun x => x ∈ n :: ns ∨ P x) = (fun x => x ∈ ns ∨ x = n ∨ P x) := by
        funext x
        rw [List.mem_cons, or_assoc, or_left_comm]
      rw [hP]; exact hstep
    · rintro (rfl | hm')
      · exact hn hm
      · exact hns m (List.mem_cons_of_mem _ hm) hm'

theorem WellFormed.nodes_foldl_bypass : ∀ (ns : List α) {g : Graph α}, g.WellFormed →
    (ns.foldl Graph.bypass g).nodes = g.nodes.filter (fun m => decide (m ∉ ns))
  | [], g, _ => by simp
  | n :: ns, g, hg => by
    rw [List.foldl_cons, WellFormed.nodes_foldl_bypass ns (hg.bypass n), hg.nodes_bypass, List.filter_filter]
    refine List.filter_congr (fun m _ => ?_)
    simp only [List.mem_cons, not_or, Bool.decide_and, Bool.and_comm]

/-! ## Contraction -/

section

variable {g : Graph α} (hg : g.WellFormed) (drop : α → Bool)

include hg

theorem WellFormed.nodes_contract : (g.contract drop).2.nodes = g.nodes.filter (fun n => !drop n) := by
  unfold Graph.contract
  dsimp only
  rw [hg.nodes_foldl_bypass]
  refine List.filter_congr (fun m hm => ?_)
  cases hd : drop m <;> simp [hm, hd]

/-- **The edges after contraction**: a loop where there was one, and between different nodes a path through dropped
nodes. -/
theorem WellFormed.edge_contract {u v : α} (hu : drop u = false) (hv : drop v = false) :
    (g.contract drop).2.Edge u v ↔
      (u = v ∧ g.Edge u v) ∨ (u ≠ v ∧ g.PathVia (fun x => drop x = true) u v) := by
  have hc := Contracted.foldl_bypass (g.nodes.filter drop) (hg.nodup_nodes.filter _) (fun _ _ => id) g.contracted_self
  unfold Graph.contract
  dsimp only
  rw [hc u v]
  have hout : ∀ {x}, drop x = false → ¬ (x ∈ g.nodes.filter drop ∨ False) := by
    intro x hx h
    rw [or_false, List.mem_filter, hx] at h
    cases h.2
  have hvia : g.PathVia (fun x => x ∈ g.nodes.filter drop ∨ False) u v ↔ g.PathVia (fun x => drop x = true) u v := by
    constructor
    · exact PathVia.mono (fun a x _ hx => (List.mem_filter.1 (hx.resolve_right id)).2)
    · exact PathVia.mono (fun a x hax hx => Or.inl (List.mem_filter.2 ⟨hg.end_mem hax, hx⟩))
  rw [hvia]
  exact ⟨And.right, fun h => ⟨⟨hout hu, hout hv⟩, h⟩⟩

/-- A node that has an edge after contraction is not dropped. -/
theorem WellFormed.keeps_of_edge_contract {u v : α} (h : (g.contract drop).2.Edge u v) :
    drop u = false ∧ drop v = false := by
  have hw := hg.contract drop
  have hn : ∀ x ∈ (g.contract drop).2.nodes, drop x = false := by
    intro x hx
    rw [hg.nodes_contract, List.mem_filter] at hx
    simpa using hx.2
  exact ⟨hn u (hw.start_mem h), hn v (hw.end_mem h)⟩

theorem WellFormed.path_of_path_contract {u v : α} (h : (g.contract drop).2.Path u v) : g.Path u v := by
  have hedge : ∀ {a b}, (g.contract drop).2.Edge a b → g.Path a b := by
    intro a b hab
    obtain ⟨ha, hb⟩ := hg.keeps_of_edge_contract drop hab
    rcases (hg.edge_contract drop ha hb).1 hab with ⟨-, h⟩ | ⟨-, h⟩
    · exact h.path
    · exact h.path
  induction h with
  | single h => exact hedge h
  | tail _ h ih => exact ih.trans (hedge h)

/-- **A path to a node that stays** leads first, through dropped nodes, to one that stays; from there contraction has
a path, unless this is the end already. -/
theorem WellFormed.first_kept {u v : α} (hv : drop v = false) (h : g.Path u v) :
    ∃ w, drop w = false ∧ g.PathVia (fun x => drop x = true) u w ∧ (w = v ∨ (g.contract drop).2.Path w v) := by
  induction h using Relation.TransGen.head_induction_on with
  | single h => exact ⟨v, hv, .edge h, Or.inl rfl⟩
  | @head a x h _ ih =>
    obtain ⟨w, hw, haw, hwv⟩ := ih
    cases hx : drop x with
    | true => exact ⟨w, hw, .step h hx haw, hwv⟩
    | false =>
      refine ⟨x, hx, .edge h, ?_⟩
      by_cases hxw : x = w
      · rw [hxw]; exact hwv
      · have he : (g.contract drop).2.Edge x w := (hg.edge_contract drop hx hw).2 (Or.inr ⟨hxw, haw⟩)
        rcases hwv with rfl | hwv
        · exact Or.inr he.path
        · exact Or.inr (he.path.trans hwv)

/-- **Contraction keeps the paths between different nodes that stay.** -/
theorem WellFormed.path_contract {u v : α} (hu : drop u = false) (hv : drop v = false) (huv : u ≠ v) :
    (g.contract drop).2.Path u v ↔ g.Path u v := by
  refine ⟨hg.path_of_path_contract drop, fun h => ?_⟩
  obtain ⟨w, hw, huw, hwv⟩ := hg.first_kept drop hv h
  by_cases hne : u = w
  · subst hne
    exact hwv.resolve_left huv
  · have he : (g.contract drop).2.Edge u w := (hg.edge_contract drop hu hw).2 (Or.inr ⟨hne, huw⟩)
    rcases hwv with rfl | hwv
    · exact he.path
    · exact he.path.trans hwv

theorem WellFormed.acyclic_contract (h : g.Acyclic) : (g.contract drop).2.Acyclic :=
  fun n hn => h n (hg.path_of_path_contract drop hn)

/-- **Contraction leaves a cycle exactly for two nodes that stay and reach each other**, if no node has a loop. -/
theorem WellFormed.acyclic_contract_iff (hloop : ∀ u, ¬ g.Edge u u) : (g.contract drop).2.Acyclic ↔
    ∀ u v, drop u = false → drop v = false → u ≠ v → g.Path u v → ¬ g.Path v u := by
  constructor
  · intro h u v hu hv huv huv' hvu'
    exact h u (((hg.path_contract drop hu hv huv).2 huv').trans ((hg.path_contract drop hv hu (Ne.symm huv)).2 hvu'))
  · intro h u hcycle
    obtain ⟨v, huv, hvu⟩ := Relation.TransGen.head'_iff.1 hcycle
    obtain ⟨hu, hv⟩ := hg.keeps_of_edge_contract drop huv
    by_cases heq : u = v
    · subst heq
      rcases (hg.edge_contract drop hu hu).1 huv with ⟨-, he⟩ | ⟨hne, -⟩
      exacts [hloop u he, hne rfl]
    · -- The cycle leaves `u`, so it comes back to it.
      rcases Relation.reflTransGen_iff_eq_or_transGen.1 hvu with hback | hback
      · exact heq hback
      · exact h u v hu hv heq (hg.path_of_path_contract drop huv.path) (hg.path_of_path_contract drop hback)

end

/-- **Contraction is exact.**  The nodes that stay keep their order, and the others are counted.  Two different nodes
that stay get an edge exactly for a path through dropped nodes, and a node has a loop exactly if it had one.  What
reaches what is unchanged, and no cycle appears. -/
theorem contract_exact {g : Graph α} (hg : g.Built) (drop : α → Bool) :
    (g.contract drop).2.nodes = g.nodes.filter (fun n => !drop n) ∧
    (g.contract drop).1 = g.nodes.countP drop ∧
    (∀ u v, drop u = false → drop v = false → u ≠ v →
      ((g.contract drop).2.hasEdge u v = true ↔ g.PathVia (fun x => drop x = true) u v)) ∧
    (∀ u, drop u = false → (g.contract drop).2.hasEdge u u = g.hasEdge u u) ∧
    (∀ u v, drop u = false → drop v = false → u ≠ v → (g.contract drop).2.reaches u v = g.reaches u v) ∧
    (g.hasCycle = false → (g.contract drop).2.hasCycle = false) := by
  have hw := hg.wellFormed
  refine ⟨hw.nodes_contract drop, List.countP_eq_length_filter.symm, fun u v hu hv huv => ?_, fun u hu => ?_,
    fun u v hu hv huv => ?_, fun hc => ?_⟩
  · rw [hasEdge_iff, hw.edge_contract drop hu hv]
    exact ⟨fun h => (h.resolve_left (fun h => huv h.1)).2, fun h => Or.inr ⟨huv, h⟩⟩
  · rw [Bool.eq_iff_iff, hasEdge_iff, hasEdge_iff, hw.edge_contract drop hu hu]
    exact ⟨fun h => (h.resolve_right (fun h => h.1 rfl)).2, fun h => Or.inl ⟨rfl, h⟩⟩
  · rw [Bool.eq_iff_iff, reaches_iff, reaches_iff]
    exact hw.path_contract drop hu hv huv
  · rw [hw.hasCycle_eq_false_iff] at hc
    rw [(hw.contract drop).hasCycle_eq_false_iff]
    exact hw.acyclic_contract drop hc

/-- Both of two dropped nodes on a cycle are passed on the way from `1` to `4`, which keeps its loop. -/
theorem contract_exact_two_cycle :
    (run [.addEdge 1 2, .addEdge 2 3, .addEdge 3 2, .addEdge 3 4, .addEdge 4 (4 : Nat)]).Built ∧
    ((run [.addEdge 1 2, .addEdge 2 3, .addEdge 3 2, .addEdge 3 4, .addEdge 4 (4 : Nat)]).contract
      (fun n => decide (n = 2 ∨ n = 3))).2.hasEdge 1 4 = true ∧
    ((run [.addEdge 1 2, .addEdge 2 3, .addEdge 3 2, .addEdge 3 4, .addEdge 4 (4 : Nat)]).contract
      (fun n => decide (n = 2 ∨ n = 3))).2.hasEdge 4 4 = true := by
  have hb : (run [.addEdge 1 2, .addEdge 2 3, .addEdge 3 2, .addEdge 3 4, .addEdge 4 (4 : Nat)]).Built := ⟨_, rfl⟩
  obtain ⟨-, -, hedge, hloop, -, -⟩ := contract_exact hb (fun n => decide (n = 2 ∨ n = 3))
  refine ⟨hb, (hedge 1 4 (by decide) (by decide) (by decide)).2 ?_, ?_⟩
  · refine .step (x := 2) ?_ (by decide) (.step (x := 3) ?_ (by decide) (.edge ?_)) <;> exact hasEdge_iff.1 (by decide)
  · rw [hloop 4 (by decide)]; decide

end Graph
end LoopNest
