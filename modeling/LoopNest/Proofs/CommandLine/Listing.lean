import LoopNest.CommandLine.Listing
import LoopNest.Proofs.Graph.Layering
import LoopNest.Proofs.Node.Labels
/-!
# Proofs.CommandLine.Listing — listings tell what they list

The lines of a schedule are numbered labels.  A graph is listed layer by layer, and each node with its children
(`rows`).  Labels can be read back, so can lines, layers and whole listings (`readsBack_rowsText`).  The listing of a
schedule tells the schedule, and that of a graph its nodes, its edges and in which layers the nodes are
(`listings_unambiguous`).
-/
namespace LoopNest

theorem withCommas_map {β : Type} (f : β → String) (xs : List β) :
    withCommas [] String.toList (xs.map f) = withCommas [] (fun x => (f x).toList) xs := by
  cases xs with
  | nil => rfl
  | cons x xs => simp only [List.map_cons, withCommas, afterCommas, List.flatMap_map]

theorem numbered_map_range {β : Type} (item : Nat → β → List Char) (f : Nat → β) (n : Nat) :
    numbered item 0 ((List.range n).map f) = (List.range n).flatMap fun k => item k (f k) := by
  have hzip : ((List.range n).map f).zipIdx = (List.range n).map fun k => (f k, k) := by
    apply List.ext_getElem
    · simp
    · intro i hi hi'
      simp
  rw [numbered, hzip, List.flatMap_map]

namespace CommandLine

/-! ## Schedules -/

def scheduleLine (k : Nat) (n : Node) : List Char :=
  (padLeft 3 (Text.decimal k) ++ "  ").toList ++ (n.label.toList ++ ['\n'])

theorem toList_scheduleText (order : List Node) : (scheduleText order).toList = numbered scheduleLine 0 order := by
  rw [scheduleText, String.toList_join, List.flatMap_map]
  simp only [numbered, scheduleLine, String.toList_append, List.append_assoc]
  rfl

/-- **A schedule can be read back.** -/
theorem readsBack_schedule :
    ReadsBack (fun order => ∀ n ∈ order, n.Legible) (fun s => s = []) (fun order => (scheduleText order).toList) := by
  have hline : ∀ k, ReadsBack Node.Legible (fun _ => True) (scheduleLine k) :=
    fun k => (Node.readsBack_label.before ['\n'] fun _ _ => trivial).behind _
  rw [funext toList_scheduleText]
  refine readsBack_numbered hline (fun _ _ _ _ => trivial) (fun k n s _ heq => ?_) (fun _ _ => trivial) 0
  simp [scheduleLine] at heq

/-! ## Graphs -/

def depth (g : Graph Node) : Nat := g.layers.foldl (fun d e => max d (e.2 + 1)) 0

/-- **What the listing of a graph shows**: for each layer its nodes, each with its children. -/
def rows (g : Graph Node) : List (List (Node × List Node)) :=
  (List.range (depth g)).map fun k => (g.layers.filter (fun e => e.2 == k)).map fun e => (e.1, g.children e.1)

def rowLine (r : Node × List Node) : List Char :=
  [' ', ' '] ++ (r.1.label.toList ++ (withCommas [' ', '→', ' '] (fun n => n.label.toList) r.2 ++ ['\n']))

def rowsBlock (k : Nat) (row : List (Node × List Node)) : List Char :=
  ("layer " ++ Text.decimal k ++ "\n").toList ++ row.flatMap rowLine

theorem toList_nodeLine (g : Graph Node) (n : Node) : (nodeLine g n).toList = rowLine (n, g.children n) := by
  unfold nodeLine rowLine
  cases g.children n with
  | nil => simp [withCommas]
  | cons c cs =>
    simp only [String.toList_append, toList_joined, withCommas_map, List.append_assoc]
    simp [withCommas]

theorem toList_layerText (g : Graph Node) (k : Nat) : (layerText g g.layers k).toList =
    rowsBlock k ((g.layers.filter (fun e => e.2 == k)).map fun e => (e.1, g.children e.1)) := by
  simp only [layerText, rowsBlock, String.toList_append, String.toList_join, List.flatMap_map, toList_nodeLine]

theorem toList_graphText (g : Graph Node) : (graphText g).toList = numbered rowsBlock 0 (rows g) := by
  have htext : graphText g = String.join ((List.range (depth g)).map (layerText g g.layers)) := rfl
  rw [htext, rows, numbered_map_range, String.toList_join, List.flatMap_map]
  simp only [toList_layerText]

/-- A row of legible nodes. -/
def LegibleRow (r : Node × List Node) : Prop := r.1.Legible ∧ ∀ c ∈ r.2, c.Legible

/-- **A line can be read back**: the label ends, and after it either the line or a list of children begins. -/
theorem readsBack_rowLine : ReadsBack LegibleRow (fun _ => True) rowLine := by
  have hchildren : ReadsBack (fun cs : List Node => ∀ c ∈ cs, c.Legible) (fun s => s.head? = some '\n')
      (withCommas [' ', '→', ' '] (fun n => n.label.toList)) := by
    -- the line breaks after the last child, and a blank stands before the arrow
    refine Node.readsBack_label.withCommas (fun _ => trivial) (fun s hs => ⟨trivial, ?_⟩) fun _ _ _ hs => by simp at hs
    rintro ⟨t, rfl⟩
    simp at hs
  have hrest : ReadsBack _ (fun _ => True) _ := hchildren.before ['\n'] fun _ _ => rfl
  exact (Node.readsBack_label.seq (fun _ _ => hrest) fun _ _ _ _ _ _ => trivial).behind [' ', ' ']

theorem readsBack_rowsBlock (k : Nat) :
    ReadsBack (fun row => ∀ r ∈ row, LegibleRow r) (fun s => s.head? ≠ some ' ') (rowsBlock k) :=
  (readsBack_rowLine.flatMap (fun _ _ _ => trivial) (fun _ _ _ hs => hs rfl) fun _ _ => trivial).behind _

/-- **All layers can be read back.** -/
theorem readsBack_rowsText :
    ReadsBack (fun rows => ∀ row ∈ rows, ∀ r ∈ row, LegibleRow r) (fun s => s = []) (numbered rowsBlock 0) := by
  have hfirst : ∀ k row s, (rowsBlock k row ++ s).head? = some 'l' := fun k row s => by simp [rowsBlock]
  refine readsBack_numbered readsBack_rowsBlock (fun k row s _ => ?_) (fun k row s _ heq => ?_) (fun s hs => ?_) 0
  · rw [hfirst]
    decide
  · have hhead := hfirst k row s
    rw [heq] at hhead
    cases hhead
  · rw [hs]
    decide

/-! ## What a listing tells -/

theorem lt_depth {g : Graph Node} {e : Node × Nat} (h : e ∈ g.layers) : e.2 < depth g := by
  have hmax : ∀ (l : List (Node × Nat)) (d : Nat), d ≤ l.foldl (fun d e => max d (e.2 + 1)) d ∧
      ∀ e ∈ l, e.2 < l.foldl (fun d e => max d (e.2 + 1)) d := by
    intro l
    induction l with
    | nil => simp
    | cons x l ih =>
      intro d
      obtain ⟨hle, hlt⟩ := ih (max d (x.2 + 1))
      rw [List.foldl_cons, List.forall_mem_cons]
      exact ⟨by omega, by omega, hlt⟩
  exact (hmax g.layers 0).2 e h

/-- **A row is a node of the layer, with its children.** -/
theorem mem_rows {g : Graph Node} {n : Node} {k : Nat} {cs : List Node} :
    (∃ row, (rows g)[k]? = some row ∧ (n, cs) ∈ row) ↔ (n, k) ∈ g.layers ∧ cs = g.children n := by
  have hrow : ∀ k < depth g, (rows g)[k]? =
      some ((g.layers.filter (fun e => e.2 == k)).map fun e => (e.1, g.children e.1)) := fun k hk => by
    simp [rows, hk]
  constructor
  · rintro ⟨row, hget, hmem⟩
    have hk : k < depth g := by
      have hlt := (List.getElem?_eq_some_iff.1 hget).1
      rwa [rows, List.length_map, List.length_range] at hlt
    rw [hrow k hk, Option.some.injEq] at hget
    rw [← hget, List.mem_map] at hmem
    obtain ⟨⟨m, l⟩, he, heq⟩ := hmem
    obtain ⟨rfl, rfl⟩ := Prod.mk.inj heq
    obtain ⟨hlayer, hl⟩ := List.mem_filter.1 he
    obtain rfl : l = k := by simpa using hl
    exact ⟨hlayer, rfl⟩
  · rintro ⟨hlayer, rfl⟩
    refine ⟨_, hrow k (lt_depth hlayer), List.mem_map.2 ⟨(n, k), List.mem_filter.2 ⟨hlayer, by simp⟩, rfl⟩⟩

theorem mem_nodes_iff {g : Graph Node} (hg : g.WellFormed) {n : Node} : n ∈ g.nodes ↔ ∃ k, (n, k) ∈ g.layers := by
  obtain ⟨layer, -, hlayers⟩ := hg.exists_depths_loose
  rw [hlayers]
  simp

variable {g h : Graph Node}

theorem legible_rows (hg : g.WellFormed) (hlegible : ∀ n ∈ g.nodes, n.Legible) :
    ∀ row ∈ rows g, ∀ r ∈ row, LegibleRow r := by
  rintro row hrow ⟨n, cs⟩ hr
  obtain ⟨k, hk⟩ := List.mem_iff_getElem?.1 hrow
  obtain ⟨hlayer, rfl⟩ := mem_rows.1 ⟨row, hk, hr⟩
  exact ⟨hlegible n ((mem_nodes_iff hg).2 ⟨k, hlayer⟩), fun c hc => hlegible c (hg.end_mem (Graph.mem_children.1 hc))⟩

/-- **The same rows are shown of the same graph**, up to the order in which it was made. -/
theorem same_of_rows_eq (hg : g.WellFormed) (hh : h.WellFormed) (heq : rows g = rows h) :
    (∀ e, e ∈ g.layers ↔ e ∈ h.layers) ∧ ∀ n m, g.Edge n m ↔ h.Edge n m := by
  have hrow : ∀ n k cs, (n, k) ∈ g.layers ∧ cs = g.children n ↔ (n, k) ∈ h.layers ∧ cs = h.children n := by
    intro n k cs
    rw [← mem_rows, ← mem_rows, heq]
  have hchildren : ∀ {n k}, (n, k) ∈ g.layers → g.children n = h.children n :=
    fun hlayer => ((hrow _ _ _).1 ⟨hlayer, rfl⟩).2
  have hlayers : ∀ e, e ∈ g.layers ↔ e ∈ h.layers := by
    rintro ⟨n, k⟩
    exact ⟨fun hlayer => ((hrow n k _).1 ⟨hlayer, rfl⟩).1, fun hlayer => ((hrow n k _).2 ⟨hlayer, rfl⟩).1⟩
  refine ⟨hlayers, fun n m => ⟨fun he => ?_, fun he => ?_⟩⟩
  · obtain ⟨k, hk⟩ := (mem_nodes_iff hg).1 (hg.start_mem he)
    rwa [← Graph.mem_children, ← hchildren hk, Graph.mem_children]
  · obtain ⟨k, hk⟩ := (mem_nodes_iff hh).1 (hh.start_mem he)
    rwa [← Graph.mem_children, hchildren ((hlayers _).2 hk), Graph.mem_children]

theorem graphText_eq_iff (hg : g.WellFormed) (hh : h.WellFormed) (hgl : ∀ n ∈ g.nodes, n.Legible)
    (hhl : ∀ n ∈ h.nodes, n.Legible) : graphText g = graphText h ↔ rows g = rows h := by
  rw [← String.toList_inj, toList_graphText, toList_graphText]
  exact readsBack_rowsText.inj rfl (legible_rows hg hgl) (legible_rows hh hhl)

/-- **Listings are unambiguous.**  Nodes are made from clear names: words of letters, digits and underscores are clear,
and so are the labels of the points of a program.  Then two nodes have the same label exactly if they are the same.  So
schedules are listed alike exactly if they are the same, and graphs exactly if their layers show the same nodes with the
same children, in the same order; such graphs have the same nodes, in the same layers, and the same edges. -/
theorem listings_unambiguous :
    (∀ n m : Node, n.Legible → m.Legible → (n.label = m.label ↔ n = m)) ∧
    (∀ xs ys : List Node, (∀ n ∈ xs, n.Legible) → (∀ n ∈ ys, n.Legible) →
      (scheduleText xs = scheduleText ys ↔ xs = ys)) ∧
    (∀ g h : Graph Node, g.Built → h.Built → (∀ n ∈ g.nodes, n.Legible) → (∀ n ∈ h.nodes, n.Legible) →
      (graphText g = graphText h ↔ rows g = rows h) ∧
      (graphText g = graphText h → (∀ n, n ∈ g.nodes ↔ n ∈ h.nodes) ∧ (∀ e, e ∈ g.layers ↔ e ∈ h.layers) ∧
        ∀ n m, g.hasEdge n m = h.hasEdge n m)) ∧
    (∀ a : Recipe, (∀ x ∈ a.names, x ≠ "" ∧ ∀ c ∈ x.toList, Identifier.isTail c = true) → a.node.Legible) ∧
    ∀ p ∈ Anchor.known, (Node.other p).Legible := by
  refine ⟨fun n m hn hm => ?_, fun xs ys hxs hys => ?_, fun g h hg hh hgl hhl => ?_, fun a ha => ?_, ?_⟩
  · rw [← String.toList_inj]
    exact Node.readsBack_label.inj trivial hn hm
  · rw [← String.toList_inj]
    exact readsBack_schedule.inj rfl hxs hys
  · have hrows := graphText_eq_iff hg.wellFormed hh.wellFormed hgl hhl
    refine ⟨hrows, fun heq => ?_⟩
    obtain ⟨hlayers, hedges⟩ := same_of_rows_eq hg.wellFormed hh.wellFormed (hrows.1 heq)
    refine ⟨fun n => ?_, hlayers, fun n m => ?_⟩
    · simp only [mem_nodes_iff hg.wellFormed, mem_nodes_iff hh.wellFormed, hlayers]
    · rw [Bool.eq_iff_iff, Graph.hasEdge_iff, Graph.hasEdge_iff, hedges]
  · exact ⟨a, fun x hx => .of_tail (ha x hx).1 (ha x hx).2, rfl⟩
  · have hknown : Anchor.known.all (fun p => decide (Clear p.label)) = true := by decide
    intro p hp
    refine ⟨.other p, fun x hx => ?_, rfl⟩
    rw [Recipe.names, List.mem_singleton] at hx
    rw [hx]
    exact of_decide_eq_true (List.all_eq_true.1 hknown p hp)

/-- A partitioning along one rank. -/
def single : Recipe := .part "A" ["K"]

/-- A partitioning along two ranks, of which the first is that one. -/
def double : Recipe := .part "A" ["K", "M"]

/-- A graph of one edge. -/
def arrow (a b : Recipe) : Graph Node := Graph.run [.addEdge a.node b.node]

/-- One edge between these nodes, and the same edge the other way: nodes, schedules and graphs are told apart. -/
theorem listings_unambiguous_pair :
    (∀ n ∈ [single.node, double.node], n.Legible) ∧ single.node.label ≠ double.node.label ∧
    scheduleText [single.node, double.node] ≠ scheduleText [double.node, single.node] ∧
    graphText (arrow single double) ≠ graphText (arrow double single) := by
  obtain ⟨hlabel, hschedule, hgraph, -⟩ := listings_unambiguous
  have hsingle : single.node.Legible := ⟨single, by decide, rfl⟩
  have hdouble : double.node.Legible := ⟨double, by decide, rfl⟩
  have hne : single.node ≠ double.node := by decide
  have hboth : ∀ n ∈ [single.node, double.node], n.Legible := by simp [hsingle, hdouble]
  have hback : ∀ n ∈ [double.node, single.node], n.Legible := by simp [hsingle, hdouble]
  refine ⟨hboth, mt (hlabel _ _ hsingle hdouble).1 hne, mt (hschedule _ _ hboth hback).1 (by decide), fun heq => ?_⟩
  have hnodes : (arrow single double).nodes = [single.node, double.node] := by decide
  have hnodes' : (arrow double single).nodes = [double.node, single.node] := by decide
  obtain ⟨-, -, hedge⟩ := (hgraph _ _ ⟨_, rfl⟩ ⟨_, rfl⟩ (hnodes ▸ hboth) (hnodes' ▸ hback)).2 heq
  exact absurd (hedge single.node double.node) (by decide)

/-- A comma inside a name would make two nodes look alike. -/
example : (Node.rank "A, B" "K").label = (Node.rank "A" "B, K").label := by decide

end CommandLine
end LoopNest
