import LoopNest.Node.Wire
import LoopNest.Flow.Plan
/-!
# CommandLine.Listing — schedules, graphs and programs for readers

Schedules and graphs are listed as lines of text or as objects; a program is summed up in lines with a label each.
-/
namespace LoopNest
namespace CommandLine

/-- How something is listed. -/
inductive Form where
  | text
  | json
deriving DecidableEq, Repr

/-- Which graph of a program is listed: as built, or without bookkeeping. -/
inductive Stage where
  | raw
  | pruned
deriving DecidableEq, Repr

/-- The name of a stage. -/
def Stage.name : Stage → String
  | .raw => "raw"
  | .pruned => "pruned"

/-- A text with blanks before it up to a width. -/
def padLeft (width : Nat) (s : String) : String :=
  String.ofList (List.replicate (width - s.length) ' ') ++ s

/-- A text with blanks after it up to a width. -/
def padRight (width : Nat) (s : String) : String :=
  s ++ String.ofList (List.replicate (width - s.length) ' ')

/-! ### Schedules -/

/-- A node as an object; the blank node has none. -/
def nodeJson (n : Node) : Json := n.toJson?.getD .null

/-- **A schedule as lines**, numbered from zero. -/
def scheduleText (order : List Node) : String :=
  String.join (order.zipIdx.map (fun e => padLeft 3 (Text.decimal e.2) ++ "  " ++ e.1.label ++ "\n"))

/-- **A schedule as an object.** -/
def scheduleJson (run path : String) (o : Outcome) : Json :=
  .object [("run", .string run), ("program", .string path), ("removed", .int o.removed),
    ("order", .array (o.order.map nodeJson))]

/-! ### Graphs -/

/-- A node and its children on a line. -/
def nodeLine (g : Graph Node) (n : Node) : String :=
  match g.children n with
  | [] => "  " ++ n.label ++ "\n"
  | children => "  " ++ n.label ++ " → " ++ Text.joined ", " (children.map Node.label) ++ "\n"

/-- The nodes of one layer below its number. -/
def layerText (g : Graph Node) (layers : List (Node × Nat)) (k : Nat) : String :=
  "layer " ++ Text.decimal k ++ "\n" ++
    String.join ((layers.filter (fun e => e.2 == k)).map (fun e => nodeLine g e.1))

/-- **A graph as lines**, layer by layer. -/
def graphText (g : Graph Node) : String :=
  let layers := g.layers
  let depth := layers.foldl (fun d e => max d (e.2 + 1)) 0
  String.join ((List.range depth).map (layerText g layers))

/-- A line that counts what is in a graph. -/
def statistics (g : Graph Node) : String :=
  "  " ++ Text.joined " · " [Text.decimal g.nodeCount ++ " nodes", Text.decimal g.edgeCount ++ " edges",
    Text.decimal g.sources.length ++ " sources", Text.decimal g.sinks.length ++ " sinks"] ++ "\n"

/-- A list, or `null` for an empty one. -/
def filledArray (items : List Json) : Json := if items.isEmpty then .null else .array items

/-- **A graph as an object.** -/
def graphJson (stage : Stage) (g : Graph Node) : Json :=
  .object [("stage", .string stage.name),
    ("nodes", filledArray (g.layers.map (fun e => .object [("node", nodeJson e.1), ("layer", .int e.2)]))),
    ("edges", filledArray (g.edgesByNode.map (fun e => .object [("from", nodeJson e.1), ("to", nodeJson e.2)]))),
    ("sources", filledArray (g.sources.map nodeJson)), ("sinks", filledArray (g.sinks.map nodeJson))]

/-! ### Programs -/

/-- A line with a label. -/
def labelled (label value : String) : String := padRight 12 label ++ " " ++ value ++ "\n"

/-- A rule: what it makes of its rank, and its steps. -/
def ruleText (p : Program) (r : Rule) : String :=
  let kind := if p.rules.isDynamic r.rank then "dynamic" else "static"
  labelled "partition" (r.rank ++ " (" ++ kind ++ ") → " ++ Text.joined ", " (p.rules.finals r.rank)) ++
    String.join (r.steps.map (fun s => "  " ++ s.label ++ "\n"))

/-- **A program in lines**: its output, its loops, its other tensors and its rules. -/
def summary (p : Program) : String :=
  labelled "output" p.outputTensor.label ++ labelled "loop order" (Text.joined ", " p.loops) ++
    String.join ((p.tensors.filter (fun t => t.root != p.output)).map (fun t => labelled "input" t.label)) ++
    String.join (p.rules.rules.map (ruleText p))

end CommandLine
end LoopNest
