import LoopNest.Yaml.Layout
/-!
# Yaml.Tree — documents as trees

A `Tree` is a text, a list of items or a list of keys with values.  `readTree` reads the first document of a text: its
tokens are put together into a tree, places left empty are filled with the empty text, and an alias is replaced by
what its anchor stands on.
-/
namespace LoopNest
namespace Yaml

/-- **A document or a part of one.**  An alias to a part that was still being read has no target. -/
inductive Tree where
  | scalar (style : Style) (tag : List Char) (text : List Char)
  | sequence (items : List Tree)
  | mapping (entries : List (Tree × Tree))
  | alias (name : List Char) (target : Option Tree)
deriving Repr

namespace Tree

/-- What stands in a place left empty. -/
def empty : Tree := .scalar .plain [] []

/-- What an alias stands for. -/
def actual? : Tree → Option Tree
  | .alias _ target => target
  | t => some t

end Tree

/-! ### Anchors and tags -/

/-- **The anchors read so far**, newest first, with what they stand on once that is known. -/
abbrev Anchors := List (List Char × Option Tree)

/-- The anchors after one more, if there is one; what it stands on is still to be read. -/
def Anchors.opened (as : Anchors) (name : List Char) : Anchors := if name.isEmpty then as else (name, none) :: as

/-- The anchors once it is known what the newest open one with a name stands on. -/
def Anchors.closed (name : List Char) (t : Tree) : Anchors → Anchors
  | [] => []
  | (n, target) :: as =>
    match target with
    | none => if n = name then (n, some t) :: as else (n, none) :: Anchors.closed name t as
    | some u => (n, some u) :: Anchors.closed name t as

/-- What the handles of tags stand for. -/
abbrev Handles := List (List Char × List Char)

/-- What handles stand for when a document says nothing. -/
def defaultHandles : Handles := [(['!'], ['!']), (['!', '!'], "tag:yaml.org,2002:".toList)]

/-- An anchor and a tag; what is missing is empty. -/
structure Properties where
  anchor : List Char
  tag : List Char

/-- The tag with a handle; without one the rest is the tag. -/
def tagOf? (handles : Handles) (handle suffix : List Char) : Option (List Char) :=
  if handle.isEmpty then some suffix else (handles.lookup handle).map (fun meaning => meaning ++ suffix)

/-- Reads an anchor and a tag, in either order. -/
def readProperties (handles : Handles) : List Token → Option (Properties × List Token)
  | .anchor name :: .tag handle suffix :: ts => (tagOf? handles handle suffix).map (fun tag => (⟨name, tag⟩, ts))
  | .tag handle suffix :: .anchor name :: ts => (tagOf? handles handle suffix).map (fun tag => (⟨name, tag⟩, ts))
  | .anchor name :: ts => some (⟨name, []⟩, ts)
  | .tag handle suffix :: ts => (tagOf? handles handle suffix).map (fun tag => (⟨[], tag⟩, ts))
  | ts => some (⟨[], []⟩, ts)

/-! ### Nodes -/

/-- Something read, the anchors after it, and the tokens left. -/
abbrev Reading (α : Type) := Option (α × Anchors × List Token)

/-- Whether the next token is one of some. -/
def isNext (stops : List Token) : List Token → Bool
  | t :: _ => stops.contains t
  | [] => false

mutual

/-- **Reads a tree.**  Blocks of entries and of keys are read if `block` is true, and entries without a block of their
own if `bare` is. -/
def readNode (handles : Handles) (block bare : Bool) : Nat → Anchors → List Token → Reading Tree
  | 0, _, _ => none
  | _ + 1, as, .alias name :: ts => (as.lookup name).map (fun target => (.alias name target, as, ts))
  | fuel + 1, as, ts =>
    match readProperties handles ts with
    | none => none
    | some (p, ts) =>
      (readContent handles block bare p fuel (as.opened p.anchor) ts).map (fun r =>
        (r.1, Anchors.closed p.anchor r.1 r.2.1, r.2.2))

/-- Reads what stands after an anchor and a tag. -/
def readContent (handles : Handles) (block bare : Bool) (p : Properties) : Nat → Anchors → List Token → Reading Tree
  | 0, _, _ => none
  | _ + 1, as, .scalar style text :: ts => some (.scalar style p.tag text, as, ts)
  | fuel + 1, as, .flowSequenceStart :: ts =>
    (readFlowItems handles true fuel as ts).map (fun r => (.sequence r.1, r.2))
  | fuel + 1, as, .flowMappingStart :: ts =>
    (readFlowPairs handles true fuel as ts).map (fun r => (.mapping r.1, r.2))
  | fuel + 1, as, ts =>
    if bare && isNext [.blockEntry] ts then (readBareItems handles fuel as ts).map (fun r => (.sequence r.1, r.2))
    else if block && isNext [.blockSequenceStart] ts then
      (readBlockItems handles fuel as ts.tail).map (fun r => (.sequence r.1, r.2))
    else if block && isNext [.blockMappingStart] ts then
      (readBlockPairs handles fuel as ts.tail).map (fun r => (.mapping r.1, r.2))
    else if p.anchor.isEmpty && p.tag.isEmpty then none
    else some (.scalar .plain p.tag [], as, ts)

/-- Reads a tree, or the empty one if the next token is one of `stops`. -/
def readUnless (handles : Handles) (block bare : Bool) (stops : List Token) :
    Nat → Anchors → List Token → Reading Tree
  | 0, _, _ => none
  | fuel + 1, as, ts => if isNext stops ts then some (.empty, as, ts) else readNode handles block bare fuel as ts

/-- Reads the value of a key: after its mark a tree, without it the empty one. -/
def readValue (handles : Handles) (block bare : Bool) (stops : List Token) :
    Nat → Anchors → List Token → Reading Tree
  | 0, _, _ => none
  | fuel + 1, as, .value :: ts => readUnless handles block bare stops fuel as ts
  | _ + 1, as, ts => some (.empty, as, ts)

/-- Reads the entries of a block, up to its end. -/
def readBlockItems (handles : Handles) : Nat → Anchors → List Token → Reading (List Tree)
  | fuel + 1, as, .blockEntry :: ts =>
    match readUnless handles true false [.blockEntry, .blockEnd] fuel as ts with
    | none => none
    | some (t, as, ts) => (readBlockItems handles fuel as ts).map (fun r => (t :: r.1, r.2))
  | _ + 1, as, .blockEnd :: ts => some ([], as, ts)
  | _, _, _ => none

/-- Reads entries without a block of their own. -/
def readBareItems (handles : Handles) : Nat → Anchors → List Token → Reading (List Tree)
  | 0, _, _ => none
  | fuel + 1, as, .blockEntry :: ts =>
    match readUnless handles true false [.blockEntry, .key, .value, .blockEnd] fuel as ts with
    | none => none
    | some (t, as, ts) => (readBareItems handles fuel as ts).map (fun r => (t :: r.1, r.2))
  | _ + 1, as, ts => some ([], as, ts)

/-- Reads the keys and values of a block, up to its end. -/
def readBlockPairs (handles : Handles) : Nat → Anchors → List Token → Reading (List (Tree × Tree))
  | fuel + 1, as, .key :: ts =>
    match readUnless handles true true [.key, .value, .blockEnd] fuel as ts with
    | none => none
    | some (k, as, ts) =>
      match readValue handles true true [.key, .value, .blockEnd] fuel as ts with
      | none => none
      | some (v, as, ts) => (readBlockPairs handles fuel as ts).map (fun r => ((k, v) :: r.1, r.2))
  | _ + 1, as, .blockEnd :: ts => some ([], as, ts)
  | _, _, _ => none

/-- Reads the items between brackets, up to the closing one.  All but the first come after a comma, and an item may be
a single key with its value. -/
def readFlowItems (handles : Handles) (first : Bool) : Nat → Anchors → List Token → Reading (List Tree)
  | 0, _, _ => none
  | _ + 1, as, .flowSequenceEnd :: ts => some ([], as, ts)
  | fuel + 1, as, ts =>
    if !first && !isNext [.flowEntry] ts then none
    else
      let ts := if first then ts else ts.tail
      match ts with
      | .flowSequenceEnd :: ts => some ([], as, ts)
      | .key :: ts =>
        match readFlowKey handles fuel as ts with
        | none => none
        | some (k, as, ts) =>
          match readValue handles false false [.flowEntry, .flowSequenceEnd] fuel as ts with
          | none => none
          | some (v, as, ts) =>
            (readFlowItems handles false fuel as ts).map (fun r => (.mapping [(k, v)] :: r.1, r.2))
      | ts =>
        match readNode handles false false fuel as ts with
        | none => none
        | some (t, as, ts) => (readFlowItems handles false fuel as ts).map (fun r => (t :: r.1, r.2))

/-- Reads the key of an item that is a single key with its value.  The token after a missing key is taken with it. -/
def readFlowKey (handles : Handles) : Nat → Anchors → List Token → Reading Tree
  | 0, _, _ => none
  | fuel + 1, as, ts =>
    if isNext [.value, .flowEntry, .flowSequenceEnd] ts then some (.empty, as, ts.tail)
    else readNode handles false false fuel as ts

/-- Reads the keys and values between braces, up to the closing one.  All but the first come after a comma, and a text
alone is a key without a value. -/
def readFlowPairs (handles : Handles) (first : Bool) : Nat → Anchors → List Token → Reading (List (Tree × Tree))
  | 0, _, _ => none
  | _ + 1, as, .flowMappingEnd :: ts => some ([], as, ts)
  | fuel + 1, as, ts =>
    if !first && !isNext [.flowEntry] ts then none
    else
      let ts := if first then ts else ts.tail
      match ts with
      | .flowMappingEnd :: ts => some ([], as, ts)
      | .key :: ts =>
        match readUnless handles false false [.value, .flowEntry, .flowMappingEnd] fuel as ts with
        | none => none
        | some (k, as, ts) =>
          match readValue handles false false [.flowEntry, .flowMappingEnd] fuel as ts with
          | none => none
          | some (v, as, ts) => (readFlowPairs handles false fuel as ts).map (fun r => ((k, v) :: r.1, r.2))
      | ts =>
        match readNode handles false false fuel as ts with
        | none => none
        | some (k, as, ts) => (readFlowPairs handles false fuel as ts).map (fun r => ((k, .empty) :: r.1, r.2))

end

/-! ### Documents -/

/-- Steps enough to read a tree from these tokens: between two tokens at most four readers are entered. -/
def readingSteps (ts : List Token) : Nat := 4 * ts.length + 4

/-- Reads the directives before a document: at most one version, which has to be 1.1, and handles, each once. -/
def readDirectives : Bool → Handles → List Token → Option (Handles × List Token)
  | versioned, handles, .version major minor :: ts =>
    if versioned || major != 1 || minor != 1 then none else readDirectives true handles ts
  | versioned, handles, .tagHandle handle meaning :: ts =>
    if (handles.lookup handle).isSome then none else readDirectives versioned (handles ++ [(handle, meaning)]) ts
  | _, handles, ts => some (handles ++ defaultHandles, ts)

/-- Whether a token begins something that belongs to no document. -/
def isOutside : Token → Bool
  | .version _ _ | .tagHandle _ _ | .documentStart | .documentEnd | .streamEnd => true
  | _ => false

/-- **Reads the first document**, if there is one, and gives the tokens after it. -/
def readDocument (ts : List Token) : Option (Option Tree × List Token) :=
  match ts with
  | .streamEnd :: _ => some (none, ts)
  | .documentEnd :: _ => none
  | [] => none
  | t :: _ =>
    if isOutside t then
      match readDirectives false [] ts with
      | some (handles, .documentStart :: u :: ts) =>
        if isOutside u then some (some .empty, u :: ts)
        else (readNode handles true false (readingSteps (u :: ts)) [] (u :: ts)).map (fun r => (some r.1, r.2.2))
      | _ => none
    else (readNode defaultHandles true false (readingSteps ts) [] ts).map (fun r => (some r.1, r.2.2))

/-- How many tokens have to be well formed from the one that ends a document on. -/
def lookAhead : Nat := 3

/-- **Reads the first document of a text**: `none` if it is malformed, `some none` if there is no document.  A fault
further on in the text does not matter. -/
def readTree (cs : List Char) : Option (Option Tree) :=
  let (ts, complete) := tokensOf cs
  match readDocument ts with
  | none => none
  | some (t, rest) => if complete || decide (lookAhead ≤ rest.length) then some t else none

end Yaml
end LoopNest
