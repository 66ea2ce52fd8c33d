import Mathlib
import LoopNest.Proofs.Graph.Orders
/-!
# Proofs.Graph.Kahn — working a worklist off

A worklist tracks an agenda when it has the number of parents that every node of it waits for, and its ready nodes
(`Tracks`).  Placing a ready node and releasing its children one by one keeps this (`Tracks.step`), so whichever ready
node comes first, working off goes on until nothing is ready (`drains_workOff`).  When nodes go by age, the ready ones
stay sorted, and the one that is placed is the first ready node of the agenda: the agenda is peeled
(`workOff_eq_peel`).  So the sort gives the first completion (`topologicalOrder?_least`), and it fails where the other
tests for cycles fail (`cycle_tests_agree`).
-/
namespace LoopNest

namespace Worklist

variable {α : Type}

/-! ## Releasing the children of a node -/

theorem put_perm (ahead : α → α → Bool) (c : α) (l : List α) : (put ahead c l).Perm (c :: l) := by
  unfold put
  refine List.perm_middle.trans ?_
  rw [List.takeWhile_append_dropWhile]

theorem put_sorted (key : α → Nat) (c : α) : ∀ l : List α, l.Pairwise (fun x y => key x ≤ key y) →
    (put (fun m n => decide (key m ≤ key n)) c l).Pairwise (fun x y => key x ≤ key y)
  | [], _ => List.pairwise_singleton _ _
  | x :: l, hl => by
    obtain ⟨hx, hl'⟩ := List.pairwise_cons.1 hl
    by_cases hc : key c ≤ key x
    · have hput : put (fun m n => decide (key m ≤ key n)) c (x :: l) = c :: x :: l := by simp [put, hc]
      rw [hput, List.pairwise_cons]
      refine ⟨fun y hy => ?_, hl⟩
      rcases List.mem_cons.1 hy with rfl | hy
      · exact hc
      · exact Nat.le_trans hc (hx y hy)
    · have hput : put (fun m n => decide (key m ≤ key n)) c (x :: l) =
          x :: put (fun m n => decide (key m ≤ key n)) c l := by simp [put, hc]
      rw [hput, List.pairwise_cons]
      refine ⟨fun y hy => ?_, put_sorted key c l hl'⟩
      rcases List.mem_cons.1 ((put_perm _ c l).mem_iff.1 hy) with rfl | hy
      · omega
      · exact hx y hy

variable [DecidableEq α]

theorem lookup_lower (c x : α) : ∀ missing : List (α × Nat),
    List.lookup x (lower missing c) = (List.lookup x missing).map (fun k => if x = c then k - 1 else k)
  | [] => rfl
  | (y, k) :: missing => by
    have ih := lookup_lower c x missing
    have hcons : lower ((y, k) :: missing) c = (y, if y = c then k - 1 else k) :: lower missing c := by
      by_cases hy : y = c <;> simp [lower, hy]
    rw [hcons, List.lookup_cons, List.lookup_cons, ih]
    by_cases hx : x = y
    · subst hx; simp
    · have hb : (x == y) = false := by simpa using hx
      rw [hb]

/-- **The counts after a round of releases**: one less for each node released. -/
theorem lookup_foldl_release (ahead : α → α → Bool) (x : α) : ∀ (cs : List α) (w : Worklist α), cs.Nodup →
    List.lookup x (cs.foldl (release ahead) w).missing =
      (List.lookup x w.missing).map (fun k => if x ∈ cs then k - 1 else k)
  | [], w, _ => by simp
  | c :: cs, w, hcs => by
    obtain ⟨hc, hcs⟩ := List.nodup_cons.1 hcs
    rw [List.foldl_cons, lookup_foldl_release ahead x cs _ hcs, release, lookup_lower, Option.map_map]
    congr 1
    funext k
    by_cases hx : x = c
    · subst hx; simp [hc]
    · simp [hx]

/-- **The ready nodes after a round of releases**: those from before, and those that waited for one parent only. -/
theorem ready_foldl_release (ahead : α → α → Bool) : ∀ (cs : List α) (w : Worklist α), cs.Nodup →
    (cs.foldl (release ahead) w).ready.Perm
      (w.ready ++ cs.filter (fun c => decide (List.lookup c w.missing = some 1)))
  | [], w, _ => by simp
  | c :: cs, w, hcs => by
    obtain ⟨hc, hcs⟩ := List.nodup_cons.1 hcs
    -- the count of a node that is still to be released has not changed
    have hlater : cs.filter (fun x => decide (List.lookup x (lower w.missing c) = some 1)) =
        cs.filter (fun x => decide (List.lookup x w.missing = some 1)) := by
      refine List.filter_congr fun x hx => ?_
      have hne : x ≠ c := by rintro rfl; exact hc hx
      simp [lookup_lower, hne]
    refine (ready_foldl_release ahead cs (release ahead w c) hcs).trans ?_
    rw [release, hlater]
    by_cases h1 : List.lookup c w.missing = some 1
    · rw [if_pos h1, List.filter_cons_of_pos (by simpa using h1)]
      exact ((put_perm ahead c w.ready).append_right _).trans List.perm_middle.symm
    · rw [if_neg h1, List.filter_cons_of_neg (by simpa using h1)]

theorem sorted_foldl_release (key : α → Nat) : ∀ (cs : List α) (w : Worklist α),
    w.ready.Pairwise (fun x y => key x ≤ key y) →
    (cs.foldl (release (fun m n => decide (key m ≤ key n))) w).ready.Pairwise (fun x y => key x ≤ key y)
  | [], _, h => h
  | c :: cs, w, h => by
    refine sorted_foldl_release key cs _ ?_
    unfold release
    dsimp only
    split
    · exact put_sorted key c w.ready h
    · exact h

end Worklist

namespace Agenda

variable {α : Type}

/-! ## What is left of a graph -/

/-- **An agenda is what is left of a graph**: some nodes, each with its parents among them, and all their children. -/
structure Remains (g : Graph α) (a : Agenda α) : Prop where
  nodup_keys : a.keys.Nodup
  nodup_waits : ∀ e ∈ a, e.2.Nodup
  mem_waits : ∀ e ∈ a, ∀ p, p ∈ e.2 ↔ p ∈ a.keys ∧ g.Edge p e.1
  child_mem : ∀ {p c}, p ∈ a.keys → g.Edge p c → c ∈ a.keys

theorem mem_keys {a : Agenda α} {e : α × List α} (he : e ∈ a) : e.1 ∈ a.keys := List.mem_map.2 ⟨e, he, rfl⟩

theorem keys_ready_sublist (a : Agenda α) : (keys (a.filter ready)).Sublist a.keys := List.filter_sublist.map _

theorem mem_keys_ready {a : Agenda α} {n : α} : n ∈ keys (a.filter ready) ↔ ∃ e ∈ a, e.2 = [] ∧ e.1 = n := by
  simp only [keys, List.mem_map, List.mem_filter, ready_iff, and_assoc]

theorem Remains.not_edge_ready {g : Graph α} {a : Agenda α} {e : α × List α} {p : α} (h : a.Remains g) (he : e ∈ a)
    (hr : e.2 = []) (hp : p ∈ a.keys) : ¬ g.Edge p e.1 := by
  intro hedge
  have hwait := (h.mem_waits e he p).2 ⟨hp, hedge⟩
  rw [hr] at hwait
  cases hwait

variable [DecidableEq α] {g : Graph α} {a : Agenda α} {e : α × List α}

theorem mem_place {n : α} {f : α × List α} : f ∈ a.place n ↔
    ∃ e ∈ a, e.1 ≠ n ∧ f = (e.1, e.2.filter (fun p => decide (p ≠ n))) := by
  simp only [place, List.mem_map, List.mem_filter, decide_eq_true_eq, and_assoc, @eq_comm _ f]

theorem Remains.waits_iff_child (h : a.Remains g) {n : α} (hn : n ∈ a.keys) (he : e ∈ a) :
    n ∈ e.2 ↔ e.1 ∈ g.children n := by
  rw [h.mem_waits e he, Graph.mem_children]
  exact and_iff_right hn

theorem Remains.length_waits_place (h : a.Remains g) {n : α} (hn : n ∈ a.keys) (he : e ∈ a) :
    (e.2.filter (fun p => decide (p ≠ n))).length = if e.1 ∈ g.children n then e.2.length - 1 else e.2.length := by
  rw [length_filter_ne (h.nodup_waits e he)]
  simp only [h.waits_iff_child hn he]

/-- **Placing a ready node leaves what is left without it.** -/
theorem Remains.place (h : a.Remains g) (he : e ∈ a) (hr : e.2 = []) : (a.place e.1).Remains g where
  nodup_keys := by rw [keys_place]; exact h.nodup_keys.filter _
  nodup_waits f hf := by
    obtain ⟨f, hfa, -, rfl⟩ := mem_place.1 hf
    exact (h.nodup_waits f hfa).filter _
  mem_waits f hf p := by
    obtain ⟨f, hfa, -, rfl⟩ := mem_place.1 hf
    rw [keys_place, List.mem_filter, List.mem_filter, h.mem_waits f hfa, and_right_comm]
  child_mem {p c} hp hpc := by
    rw [keys_place, List.mem_filter] at hp ⊢
    refine ⟨h.child_mem hp.1 hpc, ?_⟩
    -- `e` has no parent left, so it is not the child
    have hno : p ∉ e.2 := by rw [hr]; exact List.not_mem_nil
    rw [decide_eq_true_iff]
    rintro rfl
    exact hno ((h.mem_waits e he p).2 ⟨hp.1, hpc⟩)

/-! ## Placing while something is ready -/

/-- **A list drains an agenda**: each of its nodes is ready when its turn comes, and in the end nothing is ready. -/
inductive Drains : Agenda α → List α → Prop where
  | stuck {a : Agenda α} : (∀ e ∈ a, e.2 ≠ []) → Drains a []
  | place {a : Agenda α} {e : α × List α} {o : List α} : e ∈ a → e.2 = [] → Drains (a.place e.1) o → Drains a (e.1 :: o)

variable {o : List α} {n p : α}

theorem mem_keys_place : p ∈ (a.place n).keys ↔ p ∈ a.keys ∧ p ≠ n := by
  rw [keys_place, List.mem_filter, decide_eq_true_iff]

theorem Drains.subset_keys (h : Drains a o) : ∀ n ∈ o, n ∈ a.keys := by
  induction h with
  | stuck => exact fun n hn => absurd hn List.not_mem_nil
  | place he _ _ ih =>
    intro n hn
    rcases List.mem_cons.1 hn with rfl | hn
    · exact mem_keys he
    · exact (mem_keys_place.1 (ih n hn)).1

/-- No node has an edge to itself or to a node that was placed before it. -/
theorem Drains.forward (h : Drains a o) (ha : a.Remains g) :
    o.Pairwise (fun x y => ¬ g.Edge y x) ∧ ∀ x ∈ o, ¬ g.Edge x x := by
  induction h with
  | stuck => exact ⟨.nil, fun x hx => absurd hx List.not_mem_nil⟩
  | @place a e o he hr ho ih =>
    obtain ⟨hforward, hloop⟩ := ih (ha.place he hr)
    refine ⟨List.pairwise_cons.2 ⟨fun y hy => ?_, hforward⟩, fun x hx => ?_⟩
    · exact ha.not_edge_ready he hr (mem_keys_place.1 (ho.subset_keys y hy)).1
    · rcases List.mem_cons.1 hx with rfl | hx
      · exact ha.not_edge_ready he hr (mem_keys he)
      · exact hloop x hx

/-- **Exactly the nodes whose parents are all placed are placed.** -/
theorem Drains.mem_iff (h : Drains a o) (ha : a.Remains g) (hn : n ∈ a.keys) :
    n ∈ o ↔ ∀ p ∈ a.keys, g.Edge p n → p ∈ o := by
  induction h with
  | @stuck a hstuck =>
    refine ⟨fun h => absurd h List.not_mem_nil, fun h => ?_⟩
    obtain ⟨e, he, rfl⟩ := List.mem_map.1 hn
    obtain ⟨p, hp⟩ := List.exists_mem_of_ne_nil _ (hstuck e he)
    obtain ⟨hkey, hedge⟩ := (ha.mem_waits e he p).1 hp
    exact absurd (h p hkey hedge) List.not_mem_nil
  | @place a e o he hr ho ih =>
    by_cases hne : n = e.1
    · subst hne
      exact ⟨fun _ p hp hedge => absurd hedge (ha.not_edge_ready he hr hp), fun _ => List.mem_cons_self⟩
    · have hlater := ih (ha.place he hr) (mem_keys_place.2 ⟨hn, hne⟩)
      simp only [mem_keys_place, and_imp] at hlater
      rw [List.mem_cons, or_iff_right hne, hlater]
      refine forall₂_congr fun p _ => ?_
      by_cases hp : p = e.1 <;> simp [hp]

end Agenda

namespace Graph

variable {α : Type} [DecidableEq α] {g : Graph α}

theorem WellFormed.remains_agenda (hg : g.WellFormed) : g.agenda.Remains g where
  nodup_keys := by rw [keys_agenda]; exact hg.nodup_nodes
  nodup_waits e he := by
    obtain ⟨n, -, rfl⟩ := List.mem_map.1 he
    exact hg.nodup_parents n
  mem_waits e he p := by
    obtain ⟨n, -, rfl⟩ := List.mem_map.1 he
    rw [keys_agenda, mem_parents]
    exact ⟨fun hp => ⟨hg.start_mem hp, hp⟩, And.right⟩
  child_mem _ hpc := by rw [keys_agenda]; exact hg.end_mem hpc

end Graph

/-! ## The worklist of an agenda -/

namespace Worklist

open Agenda (mem_keys mem_place)

variable {α : Type} [DecidableEq α] {g : Graph α} {a : Agenda α}

/-- **A worklist tracks an agenda**: it has the number of parents that each node waits for, and the ready nodes. -/
structure Tracks (w : Worklist α) (a : Agenda α) : Prop where
  missing : ∀ e ∈ a, List.lookup e.1 w.missing = some e.2.length
  ready : w.ready.Perm (Agenda.keys (a.filter Agenda.ready))

theorem Tracks.mem_ready {w : Worklist α} (h : w.Tracks a) {n : α} : n ∈ w.ready ↔ ∃ e ∈ a, e.2 = [] ∧ e.1 = n := by
  rw [h.ready.mem_iff, Agenda.mem_keys_ready]

theorem Tracks.nodup_ready {w : Worklist α} (h : w.Tracks a) (ha : a.Remains g) : w.ready.Nodup :=
  h.ready.nodup_iff.2 (ha.nodup_keys.sublist a.keys_ready_sublist)

theorem Tracks.ready_eq {w : Worklist α} (h : w.Tracks a) {key : α → Nat}
    (hkeys : a.keys.Pairwise (fun x y => key x < key y)) (hsorted : w.ready.Pairwise (fun x y => key x ≤ key y)) :
    w.ready = Agenda.keys (a.filter Agenda.ready) := by
  -- nodes with the same key are the same, so a sorted list has but one order
  have hsub := a.keys_ready_sublist
  have hinj : (a.keys.map key).Nodup := List.pairwise_map.2 (hkeys.imp Nat.ne_of_lt)
  refine List.Perm.eq_of_pairwise (fun x y hx hy hxy hyx => ?_) hsorted ((hkeys.sublist hsub).imp Nat.le_of_lt) h.ready
  exact List.inj_on_of_nodup_map hinj (hsub.subset (h.ready.mem_iff.1 hx)) (hsub.subset hy) (Nat.le_antisymm hxy hyx)

theorem tracks_agenda (g : Graph α) : g.worklist.Tracks g.agenda where
  missing e he := by
    obtain ⟨n, hn, rfl⟩ := List.mem_map.1 he
    rw [Graph.worklist, lookup_map, if_pos hn]
    rfl
  ready := by
    rw [Graph.agenda, List.filter_map, Agenda.keys, List.map_map]
    exact List.Perm.of_eq (List.map_id _).symm

/-- **Who is ready after `n`**: who was ready before, and the children of `n` that waited for nothing else. -/
theorem Tracks.mem_ready_step (ha : a.Remains g) {missing : List (α × Nat)} {n : α} {rest : List α}
    (h : Tracks ⟨missing, n :: rest⟩ a) (x : α) :
    x ∈ rest ∨ x ∈ g.children n ∧ List.lookup x missing = some 1 ↔ ∃ f ∈ a.place n, f.2 = [] ∧ f.1 = x := by
  obtain ⟨e, he, hr, rfl⟩ := h.mem_ready.1 List.mem_cons_self
  have hn := mem_keys he
  have hrest := (List.nodup_cons.1 (h.nodup_ready ha)).1
  constructor
  · rintro (hx | ⟨hx, hone⟩)
    · obtain ⟨f, hf, hfr, rfl⟩ := h.mem_ready.1 (List.mem_cons_of_mem _ hx)
      have hne : f.1 ≠ e.1 := fun heq => hrest (heq ▸ hx)
      exact ⟨f, Agenda.ready_mem_place hf hfr hne, hfr, rfl⟩
    · obtain ⟨f, hf, rfl⟩ := List.mem_map.1 (ha.child_mem hn (Graph.mem_children.1 hx))
      have hlen : f.2.length = 1 := by rw [h.missing f hf] at hone; exact Option.some.inj hone
      have hne : f.1 ≠ e.1 := fun heq => by
        rw [heq, h.missing e he, hr] at hone
        cases hone
      refine ⟨_, mem_place.2 ⟨f, hf, hne, rfl⟩, List.length_eq_zero_iff.1 ?_, rfl⟩
      rw [ha.length_waits_place hn hf, if_pos hx, hlen]
  · -- a node ready now waited for `e` alone, or for nothing
    rintro ⟨f, hf, hfr, rfl⟩
    obtain ⟨f, hfa, hne, rfl⟩ := mem_place.1 hf
    have hlen := ha.length_waits_place hn hfa
    dsimp only at hfr ⊢
    rw [hfr] at hlen
    by_cases hchild : f.1 ∈ g.children e.1
    · have hpos := List.length_pos_of_mem ((ha.waits_iff_child hn hfa).2 hchild)
      rw [if_pos hchild, List.length_nil] at hlen
      exact Or.inr ⟨hchild, by rw [h.missing f hfa, show f.2.length = 1 by omega]⟩
    · rw [if_neg hchild, List.length_nil] at hlen
      have hready := h.mem_ready.2 ⟨f, hfa, List.length_eq_zero_iff.1 hlen.symm, rfl⟩
      exact Or.inl ((List.mem_cons.1 hready).resolve_left hne)

/-- **One node placed**: when the children of a ready node have been released, the worklist tracks the agenda without
it. -/
theorem Tracks.step (hg : g.WellFormed) (ha : a.Remains g) (ahead : α → α → Bool) {missing : List (α × Nat)} {n : α}
    {rest : List α} (h : Tracks ⟨missing, n :: rest⟩ a) :
    ((g.children n).foldl (release ahead) ⟨missing, rest⟩).Tracks (a.place n) := by
  have hready := h.mem_ready_step ha
  have hcs := hg.nodup_children n
  obtain ⟨-, hrest⟩ := List.nodup_cons.1 (h.nodup_ready ha)
  obtain ⟨e, he, hr, rfl⟩ := h.mem_ready.1 List.mem_cons_self
  refine ⟨fun f hf => ?_, (ready_foldl_release ahead _ _ hcs).trans ?_⟩
  · obtain ⟨f, hfa, -, rfl⟩ := mem_place.1 hf
    rw [lookup_foldl_release ahead _ _ _ hcs, h.missing f hfa, ha.length_waits_place (mem_keys he) hfa]
    rfl
  refine (List.perm_ext_iff_of_nodup ?_ ?_).2 fun x => ?_
  · refine List.nodup_append.2 ⟨hrest, hcs.filter _, fun x hx y hy => ?_⟩
    rintro rfl
    obtain ⟨f, hf, hfr, rfl⟩ := h.mem_ready.1 (List.mem_cons_of_mem _ hx)
    have hone : List.lookup f.1 missing = some 1 := by simpa using (List.mem_filter.1 hy).2
    rw [h.missing f hf, hfr] at hone
    cases hone
  · exact (ha.place he hr).nodup_keys.sublist (Agenda.keys_ready_sublist _)
  · rw [List.mem_append, List.mem_filter, decide_eq_true_iff, hready, Agenda.mem_keys_ready]

end Worklist

/-! ## Working off -/

namespace Graph

variable {α : Type} [DecidableEq α] {g : Graph α}

/-- **Working off drains what is left**, whichever ready node comes first. -/
theorem WellFormed.drains_workOff (hg : g.WellFormed) (ahead : α → α → Bool) (w : Worklist α) : ∀ {a : Agenda α},
    a.Remains g → w.Tracks a → a.Drains (g.workOff ahead w) := by
  fun_induction workOff g ahead w with
  | case1 missing =>
    intro a ha hw
    exact .stuck fun e he hr => absurd (hw.mem_ready.2 ⟨e, he, hr, rfl⟩) List.not_mem_nil
  | case2 missing n rest ih =>
    intro a ha hw
    obtain ⟨e, he, hr, rfl⟩ := hw.mem_ready.1 List.mem_cons_self
    exact .place he hr (ih (ha.place he hr) (hw.step hg ha ahead))

theorem WellFormed.drains_placing (hg : g.WellFormed) (ahead : α → α → Bool) : g.agenda.Drains (g.placing ahead) :=
  hg.drains_workOff ahead _ hg.remains_agenda (Worklist.tracks_agenda g)

/-- **By age, working off is peeling**: the ready nodes of the worklist come as on the agenda, so the same one is
first. -/
theorem WellFormed.workOff_eq_peel (hg : g.WellFormed) (w : Worklist α) : ∀ {a : Agenda α}, a.Remains g → w.Tracks a →
    a.keys.Pairwise (fun x y => g.nodes.idxOf x < g.nodes.idxOf y) →
    w.ready.Pairwise (fun x y => g.nodes.idxOf x ≤ g.nodes.idxOf y) → g.workOff g.older w = a.peel.1 := by
  fun_induction workOff g g.older w with
  | case1 missing =>
    intro a ha hw hkeys hsorted
    have hnone : a.filter Agenda.ready = [] := List.map_eq_nil_iff.1 (hw.ready_eq hkeys hsorted).symm
    rw [Agenda.peel_of_none (by rw [← List.head?_filter, hnone, List.head?_nil])]
  | case2 missing n rest ih =>
    intro a ha hw hkeys hsorted
    obtain ⟨e, es, hfilter, rfl, -⟩ := List.map_eq_cons_iff.1 (hw.ready_eq hkeys hsorted).symm
    have hfind : a.find? Agenda.ready = some e := by rw [← List.head?_filter, hfilter, List.head?_cons]
    have he := List.mem_of_find?_eq_some hfind
    have hr := Agenda.ready_iff.1 (List.find?_some hfind)
    have hkeys' : (a.place e.1).keys.Pairwise (fun x y => g.nodes.idxOf x < g.nodes.idxOf y) := by
      rw [Agenda.keys_place]
      exact hkeys.filter _
    have hrest := Worklist.sorted_foldl_release g.nodes.idxOf (g.children e.1) ⟨missing, rest⟩
      (List.pairwise_cons.1 hsorted).2
    rw [Agenda.peel_of_some hfind, ih (ha.place he hr) (hw.step hg ha g.older) hkeys' hrest]

theorem WellFormed.placing_older (hg : g.WellFormed) : g.placing g.older = g.agenda.peel.1 := by
  have hnodes := Agenda.pairwise_idxOf hg.nodup_nodes
  refine hg.workOff_eq_peel _ hg.remains_agenda (Worklist.tracks_agenda g) (by rw [keys_agenda]; exact hnodes) ?_
  exact (hnodes.filter _).imp Nat.le_of_lt

/-- **The sorter finds the first completion.** -/
theorem WellFormed.topologicalOrder?_eq (hg : g.WellFormed) : g.topologicalOrder? = g.agenda.completions.head? := by
  have hall := hg.closed_agenda.peel_perm.length_eq
  rw [keys_agenda, List.length_append] at hall
  rw [Agenda.head?_completions, topologicalOrder?, hg.placing_older]
  by_cases hstuck : g.agenda.peel.2 = []
  · rw [hstuck, List.length_nil] at hall
    rw [if_pos hstuck]
    exact if_pos hall
  · have hpos := List.length_pos_iff.2 hstuck
    rw [if_neg hstuck]
    exact if_neg (by omega)

/-! ## The first order -/

/-- **Sorting gives the first of all orders.**  What it returns is the least of the topological orders by the age of
their nodes, and it returns that one if there is any.  It is the one that every enumeration begins with, and there is
none exactly if enumerations are empty. -/
theorem topologicalOrder?_least (hg : g.Built) :
    (∀ o, g.topologicalOrder? = some o ↔ g.Topological o ∧ ∀ o', g.Topological o' → o' ≠ o →
      o.map (fun n => g.nodes.idxOf n) < o'.map (fun n => g.nodes.idxOf n)) ∧
    (∀ limit, 0 < limit → (g.topologicalOrders limit).head? = g.topologicalOrder?) ∧
    (g.topologicalOrder? = none ↔ ∀ limit, g.topologicalOrders limit = []) := by
  have hw := hg.wellFormed
  have hsorted := hw.sorted_completions
  simp only [hw.topologicalOrder?_eq, topologicalOrders_eq, ← hw.mem_completions_agenda]
  generalize g.agenda.completions = all at hsorted
  refine ⟨fun o => ⟨fun ho => ?_, ?_⟩, fun limit hl => ?_, ?_⟩
  · obtain ⟨rest, rfl⟩ := List.head?_eq_some_iff.1 ho
    refine ⟨List.mem_cons_self, fun o' ho' hne => ?_⟩
    exact (List.pairwise_cons.1 hsorted).1 o' ((List.mem_cons.1 ho').resolve_left hne)
  · rintro ⟨ho, hleast⟩
    cases all with
    | nil => cases ho
    | cons first rest =>
      by_cases heq : first = o
      · rw [heq, List.head?_cons]
      · -- `o` would come both before and after the first one
        have hafter := (List.pairwise_cons.1 hsorted).1 o ((List.mem_cons.1 ho).resolve_left (Ne.symm heq))
        exact absurd (hleast first List.mem_cons_self heq) (List.lt_asymm hafter)
  · rw [List.head?_take, if_neg (by omega)]
  · rw [List.head?_eq_none_iff]
    constructor
    · rintro rfl limit
      exact List.take_nil
    · intro h
      cases all with
      | nil => rfl
      | cons first rest => cases h 1

/-- A node that is added first and can be placed only when another one is ready already. -/
def latecomer : Graph Nat := run [.addNode 1, .addEdge 3 1, .addEdge 2 1, .addEdge 3 4]

/-- It goes ahead of the node that was ready before it. -/
theorem topologicalOrder?_least_latecomer : latecomer.Built ∧ latecomer.topologicalOrder? = some [3, 2, 1, 4] ∧
    (latecomer.topologicalOrders 5).head? = some [3, 2, 1, 4] ∧ latecomer.Topological [3, 4, 2, 1] ∧
    [3, 2, 1, 4].map (fun n => latecomer.nodes.idxOf n) < [3, 4, 2, 1].map (fun n => latecomer.nodes.idxOf n) := by
  have hb : latecomer.Built := ⟨_, rfl⟩
  have hsort : latecomer.topologicalOrder? = some [3, 2, 1, 4] := by cbv
  have hother : latecomer.Topological [3, 4, 2, 1] := hb.wellFormed.isTopologicalOrder_iff.1 (by decide)
  obtain ⟨hleast, hfirst, -⟩ := topologicalOrder?_least hb
  exact ⟨hb, hsort, (hfirst 5 (by decide)).trans hsort, hother, ((hleast _).1 hsort).2 _ hother (by decide)⟩

/-! ## The tests for cycles -/

/-- **All tests for cycles agree**: the depth-first search, the sort, a search from each node for the node itself,
depth first or breadth first, and the test of every order. -/
theorem cycle_tests_agree (hg : g.Built) : [
    g.hasCycle = true,
    g.topologicalOrder? = none,
    ∃ n ∈ g.nodes, g.reaches n n = true,
    ∃ n ∈ g.nodes, n ∈ g.descendants n,
    ∀ o, g.isTopologicalOrder o = false].TFAE := by
  have hw := hg.wellFormed
  have horders : (∀ o, ¬ g.Topological o) ↔ ¬ g.Acyclic := by rw [← hw.exists_topological_iff, not_exists]
  refine List.tfae_of_forall (¬ g.Acyclic) _ ?_
  simp only [List.forall_mem_cons, List.not_mem_nil, false_implies, implies_true, and_true]
  refine ⟨?_, ?_, ?_, ?_, ?_⟩
  · rw [← hw.hasCycle_eq_false_iff, Bool.not_eq_false]
  · rw [hw.topologicalOrder?_eq, List.head?_eq_none_iff, List.eq_nil_iff_forall_not_mem, ← horders]
    simp only [hw.mem_completions_agenda]
  · simp only [hw.not_acyclic_iff, reaches_iff]
  · simp only [hw.not_acyclic_iff, mem_descendants]
  · rw [← horders]
    simp only [← hw.isTopologicalOrder_iff, Bool.not_eq_true]

/-- A loop at the end of an edge. -/
def looped : Graph Nat := run [.addEdge 1 2, .addEdge 2 2]

/-- Every test finds a loop. -/
theorem cycle_tests_agree_looped : looped.Built ∧ looped.hasCycle = true ∧ looped.topologicalOrder? = none ∧
    looped.isTopologicalOrder [1, 2] = false := by
  have hb : looped.Built := ⟨_, rfl⟩
  have htests := cycle_tests_agree hb
  have hloop : ∃ n ∈ looped.nodes, looped.reaches n n = true :=
    ⟨2, by decide, reaches_iff.2 (hasEdge_iff.1 (by decide)).path⟩
  have hnone : ∀ o, looped.isTopologicalOrder o = false := (htests.out 2 4).1 hloop
  exact ⟨hb, (htests.out 2 0).1 hloop, (htests.out 2 1).1 hloop, hnone [1, 2]⟩

end Graph
end LoopNest
