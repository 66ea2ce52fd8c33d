import LoopNest.Graph.Basic
/-!
# Graph.Search — what a node reaches

Two searches from a node along the edges, breadth first (`descendants`) and depth first (`reaches`), and a depth-first
test for cycles (`hasCycle`).  All three end because a node is expanded at most once: either the edges that start at
an unexpanded node become fewer, or the list of nodes still to visit becomes shorter.
-/
namespace LoopNest
namespace Graph

variable {α : Type} [DecidableEq α]

/-- The edges that start outside of `seen`. -/
def edgesOutside (g : Graph α) (seen : List α) : List (α × α) := g.edges.filter (fun e => decide (e.1 ∉ seen))

/-- Expanding a node drops the edges that start there. -/
theorem edgesOutside_cons (g : Graph α) (n : α) (seen : List α) :
    g.edgesOutside (n :: seen) = (g.edgesOutside seen).filter (fun e => decide (e.1 ≠ n)) := by
  simp [edgesOutside, List.filter_filter, List.mem_cons, not_or]

theorem length_edgesOutside_cons_le (g : Graph α) (n : α) (seen : List α) :
    (g.edgesOutside (n :: seen)).length ≤ (g.edgesOutside seen).length := by
  rw [edgesOutside_cons]
  exact List.length_filter_le _ _

/-- A node with a child is the start of some edge, which its expansion drops. -/
theorem length_edgesOutside_cons_lt (g : Graph α) (n : α) (seen : List α) (hn : n ∉ seen) (hc : g.children n ≠ []) :
    (g.edgesOutside (n :: seen)).length < (g.edgesOutside seen).length := by
  rw [edgesOutside_cons]
  obtain ⟨c, hc⟩ := List.exists_mem_of_ne_nil _ hc
  obtain ⟨e, he, hec⟩ := List.mem_filterMap.1 hc
  have hen : e.1 = n := by
    by_cases h : e.1 = n
    · exact h
    · simp [h] at hec
  refine List.length_filter_lt_length_iff_exists.2 ⟨e, ?_, ?_⟩
  · exact List.mem_filter.2 ⟨he, by simp [hen, hn]⟩
  · simp [hen]

/-- **Breadth-first sweep**: the nodes met from a queue, each once, those in `seen` left out. -/
def sweep (g : Graph α) (seen queue : List α) : List α :=
  match queue with
  | [] => []
  | n :: rest =>
    if n ∈ seen then sweep g seen rest else n :: sweep g (n :: seen) (rest ++ g.children n)
termination_by ((g.edgesOutside seen).length, queue.length)
decreasing_by
  · exact Prod.Lex.right _ (by simp)
  · rename_i hn
    by_cases hc : g.children n = []
    · have hle := g.length_edgesOutside_cons_le n seen
      rcases Nat.lt_or_eq_of_le hle with hlt | heq
      · exact Prod.Lex.left _ _ hlt
      · rw [heq]; exact Prod.Lex.right _ (by simp [hc])
    · exact Prod.Lex.left _ _ (g.length_edgesOutside_cons_lt n seen hn hc)

/-- **The nodes at the end of a path from `a`** with at least one edge, nearest first. -/
def descendants (g : Graph α) (a : α) : List α := g.sweep [] (g.children a)

/-- **Depth-first probe**: whether `target` is met from a stack, nodes in `seen` not expanded again. -/
def probe (g : Graph α) (target : α) (seen stack : List α) : Bool :=
  match stack with
  | [] => false
  | n :: rest =>
    if n = target then true
    else if n ∈ seen then probe g target seen rest
    else probe g target (n :: seen) (g.children n ++ rest)
termination_by ((g.edgesOutside seen).length, stack.length)
decreasing_by
  · exact Prod.Lex.right _ (by simp)
  · rename_i hn
    by_cases hc : g.children n = []
    · have hle := g.length_edgesOutside_cons_le n seen
      rcases Nat.lt_or_eq_of_le hle with hlt | heq
      · exact Prod.Lex.left _ _ hlt
      · rw [heq]; exact Prod.Lex.right _ (by simp [hc])
    · exact Prod.Lex.left _ _ (g.length_edgesOutside_cons_lt n seen hn hc)

/-- **Whether some path with at least one edge leads from `a` to `b`.** -/
def reaches (g : Graph α) (a b : α) : Bool := g.probe b [] (g.children a)

/-- **Depth-first settling**: visits the nodes of `todo` below the nodes of `path`.  Meeting a node of `path` again
closes a cycle and gives `none`; otherwise the settled nodes are returned, those settled before among them. -/
def settle (g : Graph α) (path settled todo : List α) : Option (List α) :=
  match todo with
  | [] => some settled
  | n :: rest =>
    if n ∈ path then none
    else if n ∈ settled then settle g path settled rest
    else
      match settle g (n :: path) settled (g.children n) with
      | none => none
      | some settled' => settle g path (n :: settled') rest
termination_by ((g.edgesOutside path).length, todo.length)
decreasing_by
  · exact Prod.Lex.right _ (by simp)
  · rename_i hn _
    by_cases hc : g.children n = []
    · have hle := g.length_edgesOutside_cons_le n path
      rcases Nat.lt_or_eq_of_le hle with hlt | heq
      · exact Prod.Lex.left _ _ hlt
      · rw [heq]; exact Prod.Lex.right _ (by simp [hc])
    · exact Prod.Lex.left _ _ (g.length_edgesOutside_cons_lt n path hn hc)
  · exact Prod.Lex.right _ (by simp)

/-- **Whether the graph contains a directed cycle.** -/
def hasCycle (g : Graph α) : Bool := (g.settle [] [] g.nodes).isNone

end Graph
end LoopNest
