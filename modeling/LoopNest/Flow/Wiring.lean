import LoopNest.Program
/-!
# Flow.Wiring — the dependencies between the operations of a program

`Wiring.edges` lists the dependencies: first the skeleton (output, graphics, the loops from the outside in, body,
footer), then for every tensor its ranks and their partitioning, and its walk through the loops.  Ranks with a static
rule are split before the loops, ranks with a dynamic rule when the walk meets them; such a split makes the tensor
anew from the current fiber.
-/
namespace LoopNest

/-- A dependency: the first node comes before the second. -/
abbrev Dependency := Node × Node

namespace Wiring

def output : Node := .other .output
def graphics : Node := .other .graphics
def startLoop : Node := .other .startLoop
def body : Node := .other .body
def footer : Node := .other .footer

/-- Dependencies of each node of a list on the one before it, the first on `n`. -/
def chain (n : Node) : List Node → List Dependency
  | [] => []
  | m :: ms => (n, m) :: chain m ms

/-- **The skeleton**: output, graphics, the loops, body and footer, one after the other. -/
def skeleton (p : Program) : List Dependency :=
  chain output (graphics :: startLoop :: p.loops.map Node.loop ++ [body, footer])

/-- The output tensor with all splits made and its ranks in loop order. -/
def settledOutput (p : Program) : Except Problem Cursor :=
  match (p.cursor p.outputTensor).splitAll p.rules with
  | .error e => .error e.1
  | .ok c => (p.loopOrder.apply c).mapError Prod.fst

/-- Splits a pending rank and the ranks between the splits of its rule, one after the other. -/
def splitEach (p : Program) (c : Cursor) : List String → Except Problem Cursor
  | [] => .ok c
  | r :: rs =>
    match c.split p.rules r with
    | .error e => .error e.1
    | .ok d => splitEach p d rs

/-- The sources of all splits of a rank with a rule: the rank itself and the ranks between the splits. -/
def sources (p : Program) (rank : String) : List String := rank :: p.rules.intermediates rank

/-- **The partitioning of a rank before the loops**: one operation, which makes the final ranks and precedes the
graphics. -/
def staticPart (p : Program) (root rank : String) : Except Problem (List Dependency) :=
  match p.rules.finalsOf rank with
  | .error e => .error e
  | .ok names =>
    let part := Node.ofPart root [rank]
    .ok ((Node.rank root rank, part) :: names.map (fun d => (part, Node.rank root d)) ++ [(part, graphics)])

/-- **One split of a rank inside the loops**: an operation that makes two ranks and, unless the tensor leads itself,
waits for the fiber of its leader. -/
def dynamicSplit (p : Program) (root src : String) : Except Problem (List Dependency) :=
  match p.rules.split? src with
  | none => .error (.notPartitioned src)
  | some s =>
    let part := Node.ofPart root [src]
    let made := (Node.rank root src, part) :: s.pair.map (fun d => (part, Node.rank root d))
    if s.step.leader = root then .ok made
    else if (p.tensor? s.step.leader).isSome then
      .ok (made ++ [(Node.fiber (fiberName s.step.leader s.outer), part)])
    else .error (.wiringLeaderUndeclared root src s.step.leader)

/-- The splits of a rank inside the loops. -/
def dynamicPart (p : Program) (root : String) : List String → Except Problem (List Dependency)
  | [] => .ok []
  | src :: rest =>
    match dynamicSplit p root src with
    | .error e => .error e
    | .ok es =>
      match dynamicPart p root rest with
      | .error e => .error e
      | .ok fs => .ok (es ++ fs)

/-- **The ranks of a tensor and their partitioning.**  Gives the dependencies, and the cursor after the static
splits. -/
def rankPart (p : Program) (root : String) (c : Cursor) : List String → Except Problem (List Dependency × Cursor)
  | [] => .ok ([], c)
  | r :: rs =>
    let declared := (Node.tensor root, Node.rank root r)
    if p.rules.isStatic r then
      match staticPart p root r with
      | .error e => .error e
      | .ok es =>
        match splitEach p c (sources p r) with
        | .error e => .error e
        | .ok d => (rankPart p root d rs).map (fun f => (declared :: es ++ f.1, f.2))
    else if p.rules.isDynamic r then
      match dynamicPart p root (sources p r) with
      | .error e => .error e
      | .ok es => (rankPart p root c rs).map (fun f => (declared :: es ++ f.1, f.2))
    else (rankPart p root c rs).map (fun f => (declared :: f.1, f.2))

/-- **Taking the root of a tensor** with its pending ranks in their present order. -/
def rootFiber (c : Cursor) : List Dependency :=
  let taken := Node.ofSwizzle c.root c.pending
  (Node.tensor c.root, taken) :: (taken, Node.fiber c.fiber) :: c.pending.map (fun r => (Node.rank c.root r, taken))

/-- How many steps of a walk a rank stands for at most. -/
def walkSteps (p : Program) (rank : String) : Nat := 2 * Cursor.pendingSplits p.rules rank + 1

/-- **A split met on a walk**: the tensor is made anew from its fiber, split, brought into loop order, and its root
is taken again. -/
def meetSplit (p : Program) (c : Cursor) (rank : String) : Except Problem (List Dependency × Cursor) :=
  let made := Node.fromFiber c.root rank
  match c.split p.rules rank with
  | .error e => .error e.1
  | .ok d =>
    match p.loopOrder.apply d with
    | .error e => .error e.1
    | .ok f =>
      .ok ((Node.fiber c.fiber, made) :: (made, Node.ofPart c.root [rank]) :: rootFiber f.reroot, f.reroot)

/-- **A loop met on a walk**: it is entered with one fiber and gives the next. -/
def meetLoop (c d : Cursor) (rank : String) : List Dependency :=
  [(Node.fiber c.fiber, Node.loop rank), (Node.loop rank, Node.fiber d.fiber)]

/-- The walk of a cursor through the loops, in at most `fuel` steps. -/
def walk (p : Program) : Nat → Cursor → Except Problem (List Dependency × Cursor)
  | 0, c => .ok ([], c)
  | fuel + 1, c =>
    match c.pop? with
    | none => .ok ([], c)
    | some (rank, next) =>
      if p.rules.isDynamic rank then
        match meetSplit p c rank with
        | .error e => .error e
        | .ok (es, d) => (walk p fuel d).map (fun f => (es ++ f.1, f.2))
      else (walk p fuel next).map (fun f => (meetLoop c next rank ++ f.1, f.2))

/-- The walk of a cursor through all of its loops. -/
def walkAll (p : Program) (c : Cursor) : Except Problem (List Dependency × Cursor) :=
  walk p ((c.pending.map (walkSteps p)).foldr (· + ·) 0) c

/-- **The dependencies of a tensor.** -/
def tensorEdges (p : Program) (t : Tensor) : Except Problem (List Dependency) :=
  match rankPart p t.root (p.cursor t) t.ranks with
  | .error e => .error e
  | .ok (ranks, c) =>
    match p.loopOrder.apply c with
    | .error e => .error e.1
    | .ok start =>
      (walkAll p start).map (fun f => ranks ++ rootFiber start ++ f.1 ++ [(Node.fiber f.2.fiber, body)])

/-- The dependencies of the tensors of a list. -/
def tensorsEdges (p : Program) : List Tensor → Except Problem (List Dependency)
  | [] => .ok []
  | t :: ts =>
    match tensorEdges p t with
    | .error e => .error e
    | .ok es => (tensorsEdges p ts).map (fun fs => es ++ fs)

/-- **All dependencies of a program**, in the order in which they are found. -/
def edges (p : Program) : Except Problem (List Dependency) :=
  match settledOutput p with
  | .error e => .error e
  | .ok out => (tensorsEdges p p.tensors).map (fun es => skeleton p ++ (output, Node.tensor out.root) :: es)

end Wiring

/-- **The dependency graph of a program.** -/
def Program.graph (p : Program) : Except Problem (Graph Node) := (Wiring.edges p).map Graph.empty.addEdges

end LoopNest
