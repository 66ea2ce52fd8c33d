import LoopNest.Text.Quoted
/-!
# Node.Basic — the operations and bookkeeping points of a loop nest

A `Node` is a vertex of a dependency graph: a tensor, one of its ranks, a fiber, a loop, the partitioning or the
re-rooting of a tensor, a change of its rank order, or a fixed point of the program (`Anchor`).  Two nodes are equal
when they were built from the same arguments; a tuple of rank ids is kept in a normal form (`RankTuple`).
-/
namespace LoopNest

/-- A fixed point of every program. -/
structure Anchor where
  label : String
deriving DecidableEq, Repr

namespace Anchor

def startLoop : Anchor := ⟨"StartLoop"⟩
def graphics : Anchor := ⟨"Graphics"⟩
def output : Anchor := ⟨"Output"⟩
def body : Anchor := ⟨"Body"⟩
def footer : Anchor := ⟨"Footer"⟩

/-- The points that a program has. -/
def known : List Anchor := [output, graphics, startLoop, body, footer]

/-- Whether a program has this point. -/
def isKnown (a : Anchor) : Bool := decide (a ∈ known)

end Anchor

/-- The character that never occurs inside an id of a tuple. -/
def tupleSeparator : Char := '\x1f'

/-- The pieces of a text between separators; there is always at least one. -/
def piecesOf : List Char → List (List Char)
  | [] => [[]]
  | c :: cs =>
    if c = tupleSeparator then [] :: piecesOf cs
    else
      match piecesOf cs with
      | [] => [[c]]
      | p :: ps => (c :: p) :: ps

/-- **A tuple of rank ids in normal form**: no id contains the separator, and a single empty id is no id at all. -/
structure RankTuple where
  ids : List String
deriving DecidableEq, Repr

namespace RankTuple

/-- The ids of a list after cutting each at its separators. -/
def pieces (ids : List String) : List String := ids.flatMap (fun s => (piecesOf s.toList).map String.ofList)

/-- **The tuple of a list of ids.** -/
def ofList (ids : List String) : RankTuple := if pieces ids = [""] then ⟨[]⟩ else ⟨pieces ids⟩

end RankTuple

/-- What a node stands for. -/
inductive Kind where
  | invalid
  | tensor
  | rank
  | fiber
  | loop
  | part
  | fromFiber
  | swizzle
  | other
deriving DecidableEq, Repr

namespace Kind

/-- The kinds in the order of their codes. -/
def all : List Kind := [invalid, tensor, rank, fiber, loop, part, fromFiber, swizzle, other]

/-- The word for a kind. -/
def name : Kind → String
  | invalid => "invalid"
  | tensor => "tensor"
  | rank => "rank"
  | fiber => "fiber"
  | loop => "loop"
  | part => "part"
  | fromFiber => "from_fiber"
  | swizzle => "sr"
  | other => "other"

/-- The word for the kind with a code, also when there is none with it. -/
def nameOfCode (code : Nat) : String :=
  match all[code]? with
  | some k => k.name
  | none => "kind(" ++ Text.decimal code ++ ")"

end Kind

/-- **A vertex of a dependency graph.** -/
inductive Node where
  /-- No node in particular. -/
  | blank
  /-- The tensor `root` as declared. -/
  | tensor (root : String)
  /-- The rank `rank` of `root`. -/
  | rank (root rank : String)
  /-- The fiber with this name. -/
  | fiber (name : String)
  /-- The loop over `rank`. -/
  | loop (rank : String)
  /-- The partitioning of `root` along ranks. -/
  | part (root : String) (ranks : RankTuple)
  /-- The tensor made anew from the fiber of `root` at `rank`. -/
  | fromFiber (root rank : String)
  /-- The tensor `root` with its ranks brought into this order, and its root taken. -/
  | swizzle (root : String) (ranks : RankTuple)
  /-- A fixed point of the program. -/
  | other (anchor : Anchor)
deriving DecidableEq, Repr

namespace Node

/-- A partitioning along the ranks of a list. -/
def ofPart (root : String) (ranks : List String) : Node := .part root (RankTuple.ofList ranks)

/-- A change of the rank order to that of a list. -/
def ofSwizzle (root : String) (ranks : List String) : Node := .swizzle root (RankTuple.ofList ranks)

/-- What the node stands for. -/
def kind : Node → Kind
  | .blank => .invalid
  | .tensor _ => .tensor
  | .rank _ _ => .rank
  | .fiber _ => .fiber
  | .loop _ => .loop
  | .part _ _ => .part
  | .fromFiber _ _ => .fromFiber
  | .swizzle _ _ => .swizzle
  | .other _ => .other

/-- The tensor that the node is about, or the empty text. -/
def root : Node → String
  | .tensor t => t
  | .rank t _ => t
  | .part t _ => t
  | .fromFiber t _ => t
  | .swizzle t _ => t
  | _ => ""

/-- The one rank that the node is about, or the empty text. -/
def rankId : Node → String
  | .rank _ r => r
  | .loop r => r
  | .fromFiber _ r => r
  | _ => ""

/-- The ranks of the tuple that the node is about. -/
def rankIds : Node → List String
  | .part _ rs => rs.ids
  | .swizzle _ rs => rs.ids
  | _ => []

/-- The name of the fiber that the node is, or the empty text. -/
def fiberName : Node → String
  | .fiber f => f
  | _ => ""

/-- The point of the program that the node is, or a point without a label. -/
def anchor : Node → Anchor
  | .other a => a
  | _ => ⟨""⟩

/-- Whether the node is the point `a` of the program. -/
def isAnchor (n : Node) (a : Anchor) : Bool := decide (n = .other a)

/-- Whether the node is a loop. -/
def isLoop : Node → Bool
  | .loop _ => true
  | _ => false

/-- **Whether the node only keeps dependencies together** and stands for no statement of the program. -/
def isBookkeeping : Node → Bool
  | .tensor _ => true
  | .rank _ _ => true
  | .fiber _ => true
  | .other a => decide (a = .startLoop)
  | _ => false

/-- A tuple between parentheses; a single id is followed by a comma. -/
def tupleText : List String → String
  | [r] => "(" ++ r ++ ",)"
  | rs => "(" ++ Text.joined ", " rs ++ ")"

/-- **The printed name of a node.** -/
def label : Node → String
  | .blank => "InvalidNode"
  | .tensor t => "TensorNode(" ++ t ++ ")"
  | .rank t r => "RankNode(" ++ t ++ ", " ++ r ++ ")"
  | .fiber f => "FiberNode(" ++ f ++ ")"
  | .loop r => "LoopNode(" ++ r ++ ")"
  | .part t rs => "PartNode(" ++ t ++ ", " ++ tupleText rs.ids ++ ")"
  | .fromFiber t r => "FromFiberNode(" ++ t ++ ", " ++ r ++ ")"
  | .swizzle t rs => "SRNode(" ++ t ++ ", [" ++ Text.joined ", " rs.ids ++ "])"
  | .other a => "OtherNode(" ++ a.label ++ ")"

end Node
end LoopNest
