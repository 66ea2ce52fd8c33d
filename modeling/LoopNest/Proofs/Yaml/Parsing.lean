import Mathlib
import LoopNest.Yaml.Tree
import LoopNest.Proofs.Yaml.Scanning
/-!
# Proofs.Yaml.Parsing — trees from lines

Tokens that are cut from lines are put together into trees.  `Parses` says that tokens are read as a tree, `Lists` that
they are read as some parts of a block, before whatever parts come next.  Together with what the scanner does, this
makes one rule for each way of nesting: `GivesTree` and `GivesParts` speak of lines and trees only.
-/
namespace LoopNest
namespace Yaml

variable {handles : Handles}

/-! ## Trees from tokens -/

/-- The tokens that a tree without an anchor and a tag begins with. -/
def beginsTree : Token → Bool
  | .scalar _ _ | .flowSequenceStart | .blockSequenceStart | .blockMappingStart => true
  | _ => false

/-- **The tokens `ts` are read as the tree `t`**, whatever follows them. -/
structure Parses (handles : Handles) (ts : List Token) (t : Tree) : Prop where
  head : ∃ u ts', ts = u :: ts' ∧ beginsTree u = true
  read : ∀ {bare : Bool} {fuel : Nat} {rest : List Token}, 4 * ts.length ≤ fuel →
    readNode handles true bare fuel [] (ts ++ rest) = some (t, [], rest)

/-- Without an anchor and a tag, a tree is what is read at its first token. -/
theorem readNode_of_content {bare : Bool} {fuel : Nat} {u : Token} {ts rest : List Token} {t : Tree}
    (hu : beginsTree u = true)
    (h : readContent handles true bare ⟨[], []⟩ fuel [] (u :: ts) = some (t, [], rest)) :
    readNode handles true bare (fuel + 1) [] (u :: ts) = some (t, [], rest) := by
  have hp : readProperties handles (u :: ts) = some (⟨[], []⟩, u :: ts) := by
    cases u <;> first | rfl | cases hu
  rw [readNode]
  · simp only [hp]
    change (readContent handles true bare ⟨[], []⟩ fuel [] (u :: ts)).map _ = _
    rw [h]
    rfl
  · rintro name ts' h
    cases h
    cases hu

theorem parses_scalar (style : Style) (text : List Char) :
    Parses handles [.scalar style text] (.scalar style [] text) := by
  refine ⟨⟨_, _, rfl, rfl⟩, ?_⟩
  intro bare fuel rest hf
  obtain ⟨fuel, rfl⟩ : ∃ n, fuel = n + 1 + 1 := ⟨fuel - 2, by simp at hf; omega⟩
  exact readNode_of_content rfl (by rw [readContent]; rfl)

theorem parses_brackets : Parses handles [.flowSequenceStart, .flowSequenceEnd] (.sequence []) := by
  refine ⟨⟨_, _, rfl, rfl⟩, ?_⟩
  intro bare fuel rest hf
  obtain ⟨fuel, rfl⟩ : ∃ n, fuel = n + 1 + 1 + 1 := ⟨fuel - 3, by simp at hf; omega⟩
  refine readNode_of_content rfl ?_
  change readContent handles true bare ⟨[], []⟩ _ [] (.flowSequenceStart :: .flowSequenceEnd :: rest) = _
  rw [readContent, readFlowItems]
  rfl

/-- A tree is read where the next token is none of `stops`. -/
theorem Parses.readUnless {ts : List Token} {t : Tree} (h : Parses handles ts t) (bare : Bool) {stops : List Token}
    (hs : stops.all (fun u => !beginsTree u) = true) {fuel : Nat} (hf : 4 * ts.length ≤ fuel) (rest : List Token) :
    readUnless handles true bare stops (fuel + 1) [] (ts ++ rest) = some (t, [], rest) := by
  obtain ⟨u, ts', rfl, hu⟩ := h.head
  have hn : isNext stops (u :: ts' ++ rest) = false := by
    rw [List.cons_append, isNext, Bool.eq_false_iff, ne_eq, List.contains_iff_mem]
    intro hm
    have := List.all_eq_true.1 hs u hm
    simp [hu] at this
  rw [Yaml.readUnless, hn, if_neg Bool.false_ne_true]
  exact h.read hf

/-! ## Blocks -/

/-- **The tokens `ts` are read as the parts `l` of a block** by `read`, which then goes on. -/
structure Lists {α : Type} (read : Nat → Anchors → List Token → Reading (List α)) (ts : List Token) (l : List α) :
    Prop where
  length_le : l.length ≤ ts.length
  read_append : ∀ {fuel : Nat} {rest : List Token}, 4 * ts.length ≤ l.length + fuel →
    read (l.length + fuel) [] (ts ++ rest) = (read fuel [] rest).map (fun r => (l ++ r.1, r.2))

theorem Lists.append {α : Type} {read : Nat → Anchors → List Token → Reading (List α)} {ts ts' : List Token}
    {l l' : List α} (h : Lists read ts l) (h' : Lists read ts' l') : Lists read (ts ++ ts') (l ++ l') := by
  have hl := h.length_le
  have hl' := h'.length_le
  refine ⟨by simp only [List.length_append]; omega, ?_⟩
  intro fuel rest hf
  simp only [List.length_append] at hf
  rw [List.length_append, Nat.add_assoc, List.append_assoc, h.read_append (by omega), h'.read_append (by omega),
    Option.map_map]
  congr 1
  funext r
  simp

/-- A block is read up to its end. -/
theorem Lists.read_blockEnd {α : Type} {read : Nat → Anchors → List Token → Reading (List α)} {ts : List Token}
    {l : List α} (h : Lists read ts l)
    (hend : ∀ fuel rest, read (fuel + 1) [] (.blockEnd :: rest) = some ([], [], rest)) {fuel : Nat}
    (hf : 4 * ts.length < fuel) (rest : List Token) : read fuel [] (ts ++ .blockEnd :: rest) = some (l, [], rest) := by
  have hl := h.length_le
  obtain ⟨n, rfl⟩ : ∃ n, fuel = l.length + (n + 1) := ⟨fuel - l.length - 1, by omega⟩
  rw [h.read_append (by omega), hend]
  simp

theorem Parses.item {ts : List Token} {t : Tree} (h : Parses handles ts t) :
    Lists (readBlockItems handles) (.blockEntry :: ts) [t] := by
  refine ⟨by simp, ?_⟩
  intro fuel rest hf
  simp only [List.length_cons, List.length_nil] at hf
  obtain ⟨n, rfl⟩ : ∃ n, fuel = n + 1 := ⟨fuel - 1, by omega⟩
  rw [List.length_singleton, Nat.add_comm, List.cons_append, readBlockItems, h.readUnless _ (by decide) (by omega)]
  rfl

theorem Parses.pair {ts : List Token} {t : Tree} (h : Parses handles ts t) (w : List Char) :
    Lists (readBlockPairs handles) (Layout.fieldTokens w ts) [(.scalar .plain [] w, t)] := by
  refine ⟨by simp [Layout.fieldTokens], ?_⟩
  intro fuel rest hf
  simp only [Layout.fieldTokens, List.length_cons, List.length_nil] at hf
  obtain ⟨n, rfl⟩ : ∃ n, fuel = n + 1 + 1 := ⟨fuel - 2, by omega⟩
  have hkey : Yaml.readUnless handles true true [.key, .value, .blockEnd] (n + 1 + 1) []
      (.scalar .plain w :: .value :: (ts ++ rest)) = some (.scalar .plain [] w, [], .value :: (ts ++ rest)) :=
    (parses_scalar .plain w).readUnless true (by decide) (by simp; omega) (.value :: (ts ++ rest))
  have hvalue : readValue handles true true [.key, .value, .blockEnd] (n + 1 + 1) [] (.value :: (ts ++ rest)) =
      some (t, [], rest) := by
    rw [readValue, h.readUnless true (by decide) (by omega)]
  rw [List.length_singleton, Nat.add_comm]
  simp only [Layout.fieldTokens, List.cons_append]
  rw [readBlockPairs]
  simp only [hkey, hvalue]
  rfl

theorem parses_sequence {ts : List Token} {l : List Tree} (h : Lists (readBlockItems handles) ts l) :
    Parses handles (.blockSequenceStart :: ts ++ [.blockEnd]) (.sequence l) := by
  refine ⟨⟨_, _, rfl, rfl⟩, ?_⟩
  intro bare fuel rest hf
  simp only [List.cons_append, List.length_cons, List.length_append, List.length_nil] at hf
  obtain ⟨n, rfl⟩ : ∃ n, fuel = n + 1 + 1 := ⟨fuel - 2, by omega⟩
  have hread := h.read_blockEnd (fun fuel rest => by rw [readBlockItems]) (by omega : 4 * ts.length < n) rest
  simp only [List.cons_append, List.append_assoc, List.nil_append]
  refine readNode_of_content rfl ?_
  rw [readContent]
  · simp [isNext, hread]
  all_goals simp

theorem parses_mapping {ts : List Token} {es : List (Tree × Tree)} (h : Lists (readBlockPairs handles) ts es) :
    Parses handles (.blockMappingStart :: ts ++ [.blockEnd]) (.mapping es) := by
  refine ⟨⟨_, _, rfl, rfl⟩, ?_⟩
  intro bare fuel rest hf
  simp only [List.cons_append, List.length_cons, List.length_append, List.length_nil] at hf
  obtain ⟨n, rfl⟩ : ∃ n, fuel = n + 1 + 1 := ⟨fuel - 2, by omega⟩
  have hread := h.read_blockEnd (fun fuel rest => by rw [readBlockPairs]) (by omega : 4 * ts.length < n) rest
  simp only [List.cons_append, List.append_assoc, List.nil_append]
  refine readNode_of_content rfl ?_
  rw [readContent]
  · simp [isNext, hread]
  all_goals simp

/-! ## Trees from lines -/

/-- **The value `v` at the end of a line gives the tree `t`**, in a block at the column `2 * j`. -/
def GivesTree (j : Nat) (v : List Char) (t : Tree) : Prop :=
  v.all isAllowed = true ∧ ∃ ts, Layout.Value j v ts ∧ Parses defaultHandles ts t

/-- **The lines `u` give the parts `l`** of a block at the column `2 * j` that begins with `start`. -/
def GivesParts {α : Type} (start : Token) (read : Nat → Anchors → List Token → Reading (List α)) (j : Nat)
    (u : List Char) (l : List α) : Prop :=
  u.all isAllowed = true ∧ ∃ ts, Layout.Scans j start u ts ∧ Lists read ts l

/-- The lines `u` give the fields `es`. -/
abbrev GivesFields (j : Nat) (u : List Char) (es : List (Tree × Tree)) : Prop :=
  GivesParts .blockMappingStart (readBlockPairs defaultHandles) j u es

/-- The lines `u` give the items `l`. -/
abbrev GivesItems (j : Nat) (u : List Char) (l : List Tree) : Prop :=
  GivesParts .blockSequenceStart (readBlockItems defaultHandles) j u l

open Layout (depthLimit FieldName Spelled)

theorem toNat_of_isNameChar {c : Char} (h : isNameChar c = true) : 0x2d ≤ c.toNat ∧ c.toNat ≤ 0x7a := by
  rcases of_decide_eq_true h with ⟨hl, hu⟩ | ⟨hl, hu⟩ | ⟨hl, hu⟩ | rfl | rfl
  · have hl : 97 ≤ c.toNat := hl
    have hu : c.toNat ≤ 122 := hu
    omega
  · have hl : 65 ≤ c.toNat := hl
    have hu : c.toNat ≤ 90 := hu
    omega
  · have hl : 48 ≤ c.toNat := hl
    have hu : c.toNat ≤ 57 := hu
    omega
  · decide
  · decide

theorem isAllowed_of_isNameChar {c : Char} (h : isNameChar c = true) : isAllowed c = true := by
  have hn := toNat_of_isNameChar h
  simp [isAllowed]
  omega

theorem all_isAllowed {w : List Char} (h : w.all isNameChar = true) : w.all isAllowed = true :=
  List.all_eq_true.2 (fun c hc => isAllowed_of_isNameChar (List.all_eq_true.1 h c hc))

theorem all_isAllowed_blanks (n : Nat) : (List.replicate n ' ').all isAllowed = true := by
  simp [List.all_replicate, isAllowed]

theorem Layout.Spelled.givesTree {v w : List Char} {style : Style} (h : Spelled v style w) (j : Nat) :
    GivesTree j v (.scalar style [] w) := by
  refine ⟨?_, _, h.value j, parses_scalar style w⟩
  rcases h with ⟨rfl, -, hw⟩ | ⟨rfl, -, hw⟩
  · exact all_isAllowed hw.2.2
  · simp [List.all_append, all_isAllowed hw, isAllowed]

theorem givesTree_brackets (j : Nat) : GivesTree j ['[', ']'] (.sequence []) :=
  ⟨by decide, _, Layout.value_brackets j, parses_brackets⟩

theorem GivesTree.field {j : Nat} {w v : List Char} {t : Tree} (h : GivesTree j v t) (hw : FieldName w)
    (hj : j < depthLimit) : GivesFields j (w ++ ':' :: ' ' :: (v ++ ['\n'])) [(.scalar .plain [] w, t)] := by
  obtain ⟨ha, ts, hv, hp⟩ := h
  refine ⟨?_, _, hv.field hw hj, hp.pair w⟩
  simp [List.all_append, all_isAllowed hw.wordy.2.2, ha, isAllowed]

theorem GivesItems.field {j : Nat} {w u : List Char} {l : List Tree} (h : GivesItems (j + 1) u l) (hw : FieldName w)
    (hj : j < depthLimit) : GivesFields j (w ++ ':' :: '\n' :: (List.replicate (2 * (j + 1)) ' ' ++ u))
      [(.scalar .plain [] w, .sequence l)] := by
  obtain ⟨ha, ts, hu, hl⟩ := h
  refine ⟨?_, _, hu.field hw hj, (parses_sequence hl).pair w⟩
  rw [List.all_append, all_isAllowed hw.wordy.2.2, List.all_cons, List.all_cons, List.all_append,
    all_isAllowed_blanks, ha]
  rfl

theorem GivesTree.item {j : Nat} {v : List Char} {t : Tree} (h : GivesTree j v t) (h0 : 0 < j) (hj : j < depthLimit) :
    GivesItems j ('-' :: ' ' :: (v ++ ['\n'])) [t] := by
  obtain ⟨ha, ts, hv, hp⟩ := h
  refine ⟨?_, _, hv.item h0 hj, hp.item⟩
  simp [List.all_append, ha, isAllowed]

theorem GivesFields.item {j : Nat} {u : List Char} {es : List (Tree × Tree)} (h : GivesFields (j + 1) u es) (h0 : 0 < j)
    (hj : j < depthLimit) : GivesItems j ('-' :: ' ' :: u) [.mapping es] := by
  obtain ⟨ha, ts, hu, hl⟩ := h
  refine ⟨?_, _, hu.item h0 hj, (parses_mapping hl).item⟩
  simp [ha, isAllowed]

theorem GivesParts.append {α : Type} {start : Token} {read : Nat → Anchors → List Token → Reading (List α)} {j : Nat}
    {u v : List Char} {l l' : List α} (h : GivesParts start read j u l) (h' : GivesParts start read j v l') :
    GivesParts start read j (u ++ (List.replicate (2 * j) ' ' ++ v)) (l ++ l') := by
  obtain ⟨ha, ts, hu, hl⟩ := h
  obtain ⟨ha', ts', hv, hl'⟩ := h'
  refine ⟨?_, _, hu.append hv, hl.append hl'⟩
  rw [List.all_append, List.all_append, ha, ha', all_isAllowed_blanks]
  rfl

/-- **A text of fields is read as the mapping of them.** -/
theorem readTree_of_fields {u : List Char} {es : List (Tree × Tree)} (h : GivesFields 0 u es) :
    readTree u = some (some (.mapping es)) := by
  obtain ⟨ha, ts, hu, hl⟩ := h
  have htoks := tokensOf_eq hu ha
  have hread : readNode defaultHandles true false
      (readingSteps (.blockMappingStart :: ts ++ [.blockEnd, .streamEnd])) []
      (.blockMappingStart :: ts ++ [.blockEnd] ++ [.streamEnd]) = some (.mapping es, [], [.streamEnd]) :=
    (parses_mapping hl).read (by simp [readingSteps]; omega)
  rw [readTree, htoks]
  simp only [List.cons_append, List.append_assoc, List.nil_append] at hread ⊢
  rw [readDocument]
  · simp [isOutside, hread]
  all_goals simp

end Yaml
end LoopNest
