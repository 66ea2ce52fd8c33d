import Mathlib
import LoopNest.Yaml.Layout
/-!
# Proofs.Yaml.Scanning — lines cut into tokens

Lines that nest by two columns are cut into the tokens that their nesting says.  `Before` is a layout that stands
before a token, `Enters` and `Waits` are the places where a part of a block begins and ends, and `Scans` says of some
lines that they give some tokens between two such places.  A field or an item is scanned if its value is, and so are
lines after lines; `tokensOf_eq` puts this together for a whole text.

A key is known to be one only at its colon, so its token and the one that opens its block are put in among older tokens.
-/
namespace LoopNest
namespace Yaml

/-! ## Characters -/

/-- A character that a token may begin with wherever it stands. -/
def Visible (c : Char) : Prop := isBlank c = false ∧ isBreak c = false ∧ c ≠ '#' ∧ c ≠ '\ufeff'

instance : DecidablePred Visible := fun c =>
  inferInstanceAs (Decidable (isBlank c = false ∧ isBreak c = false ∧ c ≠ '#' ∧ c ≠ '\ufeff'))

theorem ne_of_isNameChar {c x : Char} (h : isNameChar c = true) (hx : isNameChar x = false) : c ≠ x := by
  rintro rfl
  rw [h] at hx
  cases hx

theorem visible_of_isNameChar {c : Char} (h : isNameChar c = true) : Visible c := by
  have hn : ∀ x, isNameChar x = false → c ≠ x := fun x => ne_of_isNameChar h
  refine ⟨?_, ?_, hn _ (by decide), hn _ (by decide)⟩
  · simp [isBlank, hn ' ' (by decide), hn '\t' (by decide)]
  · simp [isBreak, hn '\n' (by decide), hn '\r' (by decide), hn '\u0085' (by decide), hn '\u2028' (by decide),
      hn '\u2029' (by decide)]

theorem Place.skip_zero (p : Place) : p.skip 0 = p := rfl

theorem Place.skip_skip (p : Place) (m n : Nat) : (p.skip m).skip n = p.skip (m + n) := by
  simp [Place.skip, Nat.add_assoc]

theorem Place.skipBreak_eq {p : Place} {rest : List Char} (h : p.rest = '\n' :: rest) :
    p.skipBreak = ⟨rest, p.line + 1, 0, p.index + 1⟩ := by
  simp [Place.skipBreak, h]

theorem Place.atMarks_eq_false {p : Place} {x c : Char} {cs : List Char} (hr : p.rest = c :: cs)
    (h : c ≠ x ∨ p.column ≠ 0) : p.atMarks x = false := by
  unfold Place.atMarks
  rw [hr]
  rcases h with h | h
  · cases cs with
    | nil => simp
    | cons d cs => cases cs <;> simp [h]
  · simp [h]

namespace Layout

/-! ## Filler -/

theorem skipWhile_blanks {p : Place} {m : Nat} {cs : List Char} {f : Char → Bool}
    (hr : p.rest = List.replicate m ' ' ++ cs) (hf : f ' ' = true) (hc : ∀ c ∈ cs.head?, f c = false) :
    p.skipWhile f = p.skip m := by
  have hb : ∀ x ∈ List.replicate m ' ', f x = true := fun x hx => by rw [List.eq_of_mem_replicate hx, hf]
  have hcs : cs.takeWhile f = [] ∧ cs.dropWhile f = cs := by
    cases cs with
    | nil => exact ⟨rfl, rfl⟩
    | cons c cs => simp [hc c rfl]
  have ht : p.rest.takeWhile f = List.replicate m ' ' := by
    rw [hr, List.takeWhile_append_of_pos hb, hcs.1, List.append_nil]
  have hd : p.rest.dropWhile f = p.rest.drop m := by
    rw [hr, List.dropWhile_append_of_pos hb, hcs.2, List.drop_left' (List.length_replicate ..)]
  simp [Place.skipWhile, Place.skip, ht, hd]

theorem skipFiller_blanks (fuel : Nat) {s : Layout} {m : Nat} {c : Char} {cs : List Char}
    (hr : s.place.rest = List.replicate m ' ' ++ c :: cs) (hc : Visible c) :
    skipFiller (fuel + 1) s = s.moveTo (s.place.skip m) := by
  obtain ⟨hb, hk, hh, hf⟩ := hc
  have hbom : ¬ (s.place.column = 0 ∧ s.place.rest.head? = some '\ufeff') := by
    rw [hr]
    cases m with
    | zero => simp [hf]
    | succ m => simp [List.replicate_succ]
  have hd : (s.place.skip m).rest = c :: cs := by
    rw [Place.skip, hr, List.drop_left' (List.length_replicate ..)]
  simp only [isBlank, Bool.or_eq_false_iff, beq_eq_false_iff_ne] at hb
  rw [skipFiller]
  simp only [if_neg hbom]
  rw [skipWhile_blanks hr (by simp) (by simp [hb])]
  simp [hd, hh, hk]

theorem skipFiller_here (fuel : Nat) {s : Layout} {c : Char} {cs : List Char} (hr : s.place.rest = c :: cs)
    (hc : Visible c) : skipFiller (fuel + 1) s = s :=
  skipFiller_blanks fuel (m := 0) hr hc

theorem skipFiller_break (fuel : Nat) {s : Layout} {rest : List Char} (hr : s.place.rest = '\n' :: rest)
    (hf : s.flow = 0) :
    skipFiller (fuel + 1) s = skipFiller fuel ((s.moveTo s.place.skipBreak).allowKey true) := by
  have hbom : ¬ (s.place.column = 0 ∧ s.place.rest.head? = some '\ufeff') := by simp [hr]
  rw [skipFiller]
  simp only [if_neg hbom]
  rw [skipWhile_blanks (m := 0) hr (by simp) (by simp), Place.skip_zero]
  simp [hr, hf, isBreak]

theorem skipFiller_nil (fuel : Nat) {s : Layout} (hr : s.place.rest = []) : skipFiller (fuel + 1) s = s := by
  have hbom : ¬ (s.place.column = 0 ∧ s.place.rest.head? = some '\ufeff') := by simp [hr]
  rw [skipFiller]
  simp only [if_neg hbom]
  rw [skipWhile_blanks (m := 0) hr (by simp) (by simp), Place.skip_zero]
  simp [hr, moveTo]

/-! ## Blocks -/

/-- The column of the block at a depth; outside of all blocks it is below zero. -/
def edge : Nat → Int
  | 0 => -1
  | k + 1 => 2 * k

/-- The columns of the blocks around the one at a depth. -/
def edges : Nat → List Int
  | 0 => []
  | k + 1 => edge k :: edges k

theorem edge_lt {j k : Nat} (h : j < k) : edge j < edge k := by
  cases j <;> cases k <;> simp only [edge] <;> omega

theorem length_edges (k : Nat) : (edges k).length = k := by
  induction k with
  | zero => rfl
  | succ k ih => simp [edges, ih]

/-- A layout outside of brackets in the block at a depth. -/
def inBlock (k : Nat) (tokens : List Token) (p : Place) (keyAllowed : Bool) (candidate : Option Candidate) : Layout :=
  ⟨p, edge k, edges k, 0, keyAllowed, candidate, [], tokens⟩

/-- Going back to the column of a block closes the blocks inside it. -/
theorem closeBlocks_inBlock {j : Nat} (p : Place) (a : Bool) (cand : Option Candidate) :
    ∀ (k : Nat) (toks : List Token), j ≤ k → closeBlocks (edge j) (inBlock k toks p a cand) (edges k) =
      inBlock j (List.replicate (k - j) .blockEnd ++ toks) p a cand
  | 0, toks, h => by
    obtain rfl : j = 0 := by omega
    rfl
  | k + 1, toks, h => by
    rw [edges, closeBlocks]
    by_cases hj : j = k + 1
    · subst hj
      simp [inBlock, edges]
    · have hlt : edge j < (inBlock (k + 1) toks p a cand).indent := edge_lt (k := k + 1) (by omega)
      rw [if_pos hlt]
      have ih := closeBlocks_inBlock (j := j) p a cand k (.blockEnd :: toks) (by omega)
      have hr : k + 1 - j = (k - j) + 1 := by omega
      rw [hr, List.replicate_succ', List.append_assoc]
      exact ih

/-- A column at or after that of the block closes nothing. -/
theorem closeBlocks_of_le {k : Nat} {toks : List Token} {p : Place} {a : Bool} {cand : Option Candidate} {column : Int}
    (h : edge k ≤ column) : closeBlocks column (inBlock k toks p a cand) (edges k) = inBlock k toks p a cand := by
  cases k with
  | zero => rfl
  | succ k =>
    rw [edges, closeBlocks, if_neg (by simpa [inBlock] using h)]
    rfl

theorem dedent_inBlock {j k : Nat} (h : j ≤ k) (toks : List Token) (p : Place) (a : Bool) (cand : Option Candidate) :
    (inBlock k toks p a cand).dedent (edge j) = inBlock j (List.replicate (k - j) .blockEnd ++ toks) p a cand :=
  closeBlocks_inBlock p a cand k toks h

theorem dedent_of_le {k : Nat} {toks : List Token} {p : Place} {a : Bool} {cand : Option Candidate} {column : Int}
    (h : edge k ≤ column) : (inBlock k toks p a cand).dedent column = inBlock k toks p a cand :=
  closeBlocks_of_le h

/-! ## Tokens -/

/-- A mark or a text on a line is read as its first character says. -/
theorem takeToken_of {s s₁ s₂ : Layout} {c : Char} {cs : List Char} (h : skipFiller (s.place.rest.length + 1) s = s₁)
    (hd : s₁.dedent s₁.place.column = s₂) (hr : s₂.place.rest = c :: cs) (hp : c ≠ '%') (ht : c ≠ '.')
    (hm : c ≠ '-' ∨ s₂.place.column ≠ 0) : s.takeToken = s₂.takeMark.map afterToken := by
  rw [takeToken]
  simp [h, hd, hr, hp, Place.atMarks_eq_false hr (.inl ht), Place.atMarks_eq_false hr hm]

/-- No comment comes next on the line. -/
def Uncommented (cs : List Char) : Prop := (cs.dropWhile isBlank).head? ≠ some '#'

theorem afterToken_eq {s : Layout} (h : Uncommented s.place.rest) : s.afterToken = s := by
  have hs : s.moveTo (skipLineComment s.place) = s := by
    have hp : skipLineComment s.place = s.place := if_neg h
    rw [hp]
    rfl
  unfold afterToken
  split
  · rfl
  · split
    · rfl
    · exact hs
  · exact hs

theorem uncommented_of_visible {cs : List Char} (h : ∀ c ∈ cs.head?, Visible c) : Uncommented cs := by
  cases cs with
  | nil => simp [Uncommented]
  | cons c cs =>
    obtain ⟨hb, -, hh, -⟩ := h c rfl
    simp [Uncommented, hb, hh]

theorem uncommented_blank {c : Char} {cs : List Char} (hc : cs.head? = some c) (h : Visible c) :
    Uncommented (' ' :: cs) := by
  obtain ⟨cs, rfl⟩ := List.head?_eq_some_iff.1 hc
  rw [Uncommented, List.dropWhile_cons_of_pos rfl]
  exact uncommented_of_visible (by simp [h])

/-! ## Plain texts -/

/-- A text of letters, digits, underscores and dashes that is not a dash alone. -/
def Wordy (w : List Char) : Prop := w ≠ [] ∧ w ≠ ['-'] ∧ w.all isNameChar = true

theorem plainRun_append {w rest : List Char} (hw : w.all isNameChar = true) (hr : plainRun false rest = []) :
    plainRun false (w ++ rest) = w := by
  induction w with
  | nil => exact hr
  | cons c w ih =>
    simp only [List.all_cons, Bool.and_eq_true] at hw
    obtain ⟨hb, hk, -, -⟩ := visible_of_isNameChar hw.1
    have hc : c ≠ ':' := ne_of_isNameChar hw.1 (by decide)
    simp [plainRun, hb, hk, endsPlain, hc, ih hw.2]

theorem Wordy.exists_head {w : List Char} (h : Wordy w) : ∃ c cs, w = c :: cs ∧ isNameChar c = true := by
  obtain ⟨hne, -, hw⟩ := h
  cases w with
  | nil => exact absurd rfl hne
  | cons c cs => exact ⟨c, cs, rfl, by simpa using (Bool.and_eq_true _ _ ▸ hw : _ ∧ _).1⟩

/-- A plain text is read from here: no document begins or ends, nor does a comment. -/
theorem Wordy.not_ended {w rest : List Char} (h : Wordy w) {p : Place} (hr : p.rest = w ++ rest)
    (hm : p.column ≠ 0 ∨ w.head? ≠ some '-') : (p.atDocumentMark || p.rest.head? == some '#') = false := by
  obtain ⟨c, cs, rfl, hc⟩ := h.exists_head
  have hd : c ≠ '.' := ne_of_isNameChar hc (by decide)
  have hh : c ≠ '#' := ne_of_isNameChar hc (by decide)
  have hm' : c ≠ '-' ∨ p.column ≠ 0 := by
    rcases hm with hm | hm
    · exact .inr hm
    · exact .inl (by simpa using hm)
  rw [List.cons_append] at hr
  simp [Place.atDocumentMark, Place.atMarks_eq_false hr hm', Place.atMarks_eq_false hr (.inl hd), hr, hh]

/-- A text before a colon is read up to it. -/
theorem readPlain_colon {w x : List Char} (hw : Wordy w) (hx : atGap x = true) {p : Place}
    (hr : p.rest = w ++ ':' :: x) (hm : p.column ≠ 0 ∨ w.head? ≠ some '-') (indent : Int) (fuel : Nat) :
    readPlain false indent (fuel + 1) false .empty [] p = some (w, false, p.skip w.length) := by
  have hrun : plainRun false p.rest = w := by
    rw [hr]
    exact plainRun_append hw.2.2 (by simp [plainRun, endsPlain, hx])
  have hs : (p.skip w.length).rest = ':' :: x := by rw [Place.skip, hr, List.drop_left' rfl]
  have hg : atGap (':' :: x) = false := rfl
  rw [readPlain, hw.not_ended hr hm]
  simp [hrun, hs, hg, hw.1, Gap.folded, Gap.empty]

theorem takeBreak_of_not_break {c : Char} (h : isBreak c = false) (cs : List Char) : takeBreak (c :: cs) = none := by
  have hne : ∀ x, isBreak x = true → c ≠ x := by
    rintro x hx rfl
    rw [h] at hx
    cases hx
  rw [takeBreak]
  · simp [hne '\u2028' (by decide), hne '\u2029' (by decide), h]
  · exact fun _ hc _ => hne '\r' (by decide) hc

theorem readGap_break {p : Place} {rest : List Char} (h : p.rest = '\n' :: rest) {indent : Int} {fuel : Nat} :
    readGap indent (fuel + 1) false .empty p = readGap indent fuel true ⟨[], some '\n', []⟩ p.skipBreak := by
  rw [readGap]
  simp [h, isBlank, takeBreak, isBreak, Gap.empty]

/-- The blanks at the front of a line are passed over. -/
theorem readGap_blanks (indent : Int) (g : Gap) {cs : List Char} (hc : ∀ c ∈ cs.head?, Visible c) :
    ∀ (m fuel : Nat) (p : Place), p.rest = List.replicate m ' ' ++ cs → m < fuel →
      readGap indent fuel true g p = some (true, g, p.skip m)
  | 0, fuel + 1, p, hr, _ => by
    rw [readGap]
    cases cs with
    | nil => simp [hr, Place.skip_zero]
    | cons c cs =>
      obtain ⟨hb, hk, -, -⟩ := hc c rfl
      simp [hr, hb, takeBreak_of_not_break hk, Place.skip_zero]
  | m + 1, fuel + 1, p, hr, hf => by
    have hs : (p.skip 1).rest = List.replicate m ' ' ++ cs := by simp [Place.skip, hr, List.replicate_succ]
    have ih := readGap_blanks indent g hc m fuel (p.skip 1) hs (by omega)
    rw [Place.skip_skip, Nat.add_comm] at ih
    rw [readGap]
    simp [hr, List.replicate_succ, isBlank, ih]

/-- A text at the end of a line is read with the break and the blanks of the next line, if that is not deeper. -/
theorem readPlain_line {w cs : List Char} {m : Nat} (hw : Wordy w) (hc : ∀ c ∈ cs.head?, Visible c) {p : Place}
    (hr : p.rest = w ++ '\n' :: (List.replicate m ' ' ++ cs)) (hm : p.column ≠ 0 ∨ w.head? ≠ some '-') {indent : Int}
    (hi : (m : Int) < indent) (fuel : Nat) :
    readPlain false indent (fuel + 1) false .empty [] p =
      some (w, true, ⟨cs, p.line + 1, m, p.index + w.length + 1 + m⟩) := by
  have hrun : plainRun false p.rest = w := by
    rw [hr]
    exact plainRun_append hw.2.2 (by simp [plainRun, isBreak])
  have hs : (p.skip w.length).rest = '\n' :: (List.replicate m ' ' ++ cs) := by rw [Place.skip, hr, List.drop_left' rfl]
  have hb : (p.skip w.length).skipBreak = ⟨List.replicate m ' ' ++ cs, p.line + 1, 0, p.index + w.length + 1⟩ := by
    rw [Place.skipBreak_eq hs]
    rfl
  have hgap : readGap indent ((p.skip w.length).rest.length + 1) false .empty (p.skip w.length) =
      some (true, ⟨[], some '\n', []⟩, ⟨cs, p.line + 1, m, p.index + w.length + 1 + m⟩) := by
    rw [readGap_break hs, hb, readGap_blanks indent ⟨[], some '\n', []⟩ hc m _ _ rfl (by simp [hs])]
    simp [Place.skip]
  have he : w.isEmpty = false := by simp [hw.1]
  rw [readPlain, hw.not_ended hr hm]
  simp only [hrun, ite_self, Bool.false_and, hgap]
  simp [hs, he, hi, Gap.folded, Gap.empty, atGap, isBreak]

/-! ## Quoted texts -/

theorem quotedRun_append : ∀ {w x : List Char}, w.all isNameChar = true → ∀ (fuel : Nat) (p : Place),
    p.rest = w ++ '"' :: x → w.length < fuel → quotedRun true fuel p = some (w, .plain, p.skip w.length)
  | [], x, _, fuel + 1, p, hr, _ => by
    rw [quotedRun]
    simp [hr, isBlank, isBreak, Place.skip_zero]
  | c :: w, x, hw, fuel + 1, p, hr, hf => by
    simp only [List.all_cons, Bool.and_eq_true] at hw
    obtain ⟨hb, hk, -, -⟩ := visible_of_isNameChar hw.1
    have hs : (p.skip 1).rest = w ++ '"' :: x := by simp [Place.skip, hr]
    have ih := quotedRun_append hw.2 fuel (p.skip 1) hs (by simpa using hf)
    rw [Place.skip_skip, Nat.add_comm] at ih
    rw [quotedRun]
    simp [hr, hb, hk, ne_of_isNameChar hw.1 (x := '"') (by decide), ne_of_isNameChar hw.1 (x := '\\') (by decide), ih]

/-- A text is read up to and with its closing quote. -/
theorem readQuoted_append {w x : List Char} (hw : w.all isNameChar = true) {p : Place} (hr : p.rest = w ++ '"' :: x)
    (hc : p.column ≠ 0) (fuel : Nat) : readQuoted true (fuel + 1) [] p = some (w, p.skip (w.length + 1)) := by
  have hm : p.atDocumentMark = false := by simp [Place.atDocumentMark, Place.atMarks, hc]
  have hs : (p.skip w.length).rest = '"' :: x := by rw [Place.skip, hr, List.drop_left' rfl]
  have he : p.rest.isEmpty = false := by simp [hr]
  rw [readQuoted, hm, he, quotedRun_append hw _ p hr (by simp [hr])]
  simp [hs, Place.skip_skip]

/-! ## Between tokens -/

/-- A candidate that need not be a key. -/
def Loose (cand : Option Candidate) : Prop := ∀ c ∈ cand, c.required = false

theorem loose_none : Loose none := by simp [Loose]

/-- **Before a token** at a column outside of brackets, in the block at a depth: `cs` is what is left from there, and
`a` says whether a key may begin. -/
def Before (s : Layout) (a : Bool) (k : Nat) (toks : List Token) (column : Nat) (cs : List Char) : Prop :=
  s.tokens.head? ≠ some .streamEnd ∧ ∃ line index cand, Loose cand ∧
    skipFiller (s.place.rest.length + 1) s = inBlock k toks ⟨cs, line, column, index⟩ a cand

theorem before_here {k : Nat} {toks : List Token} {p : Place} {a : Bool} {cand : Option Candidate}
    (ht : toks.head? ≠ some .streamEnd) (hp : ∀ c ∈ p.rest.head?, Visible c) (hl : Loose cand) :
    Before (inBlock k toks p a cand) a k toks p.column p.rest := by
  have h : ∀ fuel, skipFiller (fuel + 1) (inBlock k toks p a cand) = inBlock k toks p a cand := by
    intro fuel
    cases hr : p.rest with
    | nil => exact skipFiller_nil (s := inBlock k toks p a cand) fuel hr
    | cons c cs => exact skipFiller_here (s := inBlock k toks p a cand) fuel hr (hp c (by simp [hr]))
  exact ⟨ht, p.line, p.index, cand, hl, h _⟩

/-- At the end of a line the next token is the first of the next line. -/
theorem before_break {k : Nat} {toks : List Token} {p : Place} {a : Bool} {cand : Option Candidate} {m : Nat}
    {cs : List Char} (ht : toks.head? ≠ some .streamEnd) (hr : p.rest = '\n' :: (List.replicate m ' ' ++ cs))
    (hm : cs = [] → m = 0) (hp : ∀ c ∈ cs.head?, Visible c) (hl : Loose cand) :
    Before (inBlock k toks p a cand) true k toks m cs := by
  refine ⟨ht, p.line + 1, p.index + 1 + m, cand, hl, ?_⟩
  have hlen : (inBlock k toks p a cand).place.rest.length + 1 = (List.replicate m ' ' ++ cs).length + 1 + 1 := by
    rw [inBlock, hr, List.length_cons]
  rw [hlen, skipFiller_break (s := inBlock k toks p a cand) _ hr rfl]
  have hb : ((inBlock k toks p a cand).moveTo p.skipBreak).allowKey true =
      inBlock k toks ⟨List.replicate m ' ' ++ cs, p.line + 1, 0, p.index + 1⟩ true cand := by
    rw [Place.skipBreak_eq hr]
    rfl
  change skipFiller _ (((inBlock k toks p a cand).moveTo p.skipBreak).allowKey true) = _
  rw [hb]
  cases cs with
  | nil =>
    obtain rfl := hm rfl
    exact skipFiller_nil _ rfl
  | cons c cs =>
    rw [skipFiller_blanks _ (m := m) rfl (hp c rfl)]
    simp [inBlock, moveTo, Place.skip]

/-- The next token stands one blank further. -/
theorem before_blank {k : Nat} {toks : List Token} {p : Place} {a : Bool} {cand : Option Candidate} {c : Char}
    {cs : List Char} (ht : toks.head? ≠ some .streamEnd) (hr : p.rest = ' ' :: cs) (hc : cs.head? = some c)
    (hp : Visible c) (hl : Loose cand) : Before (inBlock k toks p a cand) a k toks (p.column + 1) cs := by
  obtain ⟨cs, rfl⟩ := List.head?_eq_some_iff.1 hc
  refine ⟨ht, p.line, p.index + 1, cand, hl, ?_⟩
  rw [skipFiller_blanks _ (m := 1) hr hp]
  simp [inBlock, moveTo, Place.skip, hr]

/-- Reading `n` tokens leads from one layout to another. -/
def Runs (n : Nat) (s s' : Layout) : Prop := ∀ fuel, run (n + fuel) s = run fuel s'

theorem Runs.trans {m n : Nat} {s s' s'' : Layout} (h : Runs m s s') (h' : Runs n s' s'') : Runs (m + n) s s'' := by
  intro fuel
  rw [Nat.add_assoc, h, h']

theorem runs_one {s s' : Layout} (ht : s.tokens.head? ≠ some .streamEnd) (h : s.takeToken = some s') : Runs 1 s s' := by
  intro fuel
  rw [Nat.add_comm, run, if_neg ht, h]

/-- **After a part of the block at the column `2 * j`**: blocks inside of it may still have to be closed.  `toks` are
the tokens up to there once they are. -/
def Waits (s : Layout) (j : Nat) (toks : List Token) (column : Nat) (cs : List Char) : Prop :=
  ∃ k old, j < k ∧ toks = List.replicate (k - (j + 1)) .blockEnd ++ old ∧ Before s true k old column cs

/-- **Before a part of the block at the column `2 * j`**, which is still to be opened with `start`, or is open. -/
def Enters (s : Layout) (j : Nat) (start : Token) (toks : List Token) (cs : List Char) : Prop :=
  (∃ old, toks = start :: old ∧ Before s true j old (2 * j) cs) ∨ Waits s j toks (2 * j) cs

/-- The block of the column `2 * j` is innermost, or the one around it is and `start` is missing. -/
def Innermost (j : Nat) (start : Token) (toks : List Token) (k : Nat) (old : List Token) : Prop :=
  (k = j ∧ toks = start :: old) ∨ (k = j + 1 ∧ toks = old)

theorem edge_le {j : Nat} : edge j ≤ ((2 * j : Nat) : Int) := by
  cases j <;> simp only [edge] <;> omega

theorem edge_succ (j : Nat) : edge (j + 1) = ((2 * j : Nat) : Int) := by
  simp [edge]

/-- The token is read in the block of its column, once deeper blocks are closed. -/
theorem Enters.takeToken {s : Layout} {j : Nat} {start : Token} {toks : List Token} {c : Char} {cs : List Char}
    (h : Enters s j start toks (c :: cs)) (hp : c ≠ '%') (ht : c ≠ '.') (hm : c ≠ '-' ∨ 0 < j) :
    ∃ k old line index cand, Innermost j start toks k old ∧ Loose cand ∧ s.tokens.head? ≠ some .streamEnd ∧
      s.takeToken = (inBlock k old ⟨c :: cs, line, 2 * j, index⟩ true cand).takeMark.map afterToken := by
  have hm' : c ≠ '-' ∨ 2 * j ≠ 0 := hm.imp_right (by omega)
  rcases h with ⟨old, rfl, hh, line, index, cand, hl, hs⟩ | ⟨k, old, hk, rfl, hh, line, index, cand, hl, hs⟩
  · exact ⟨j, old, line, index, cand, .inl ⟨rfl, rfl⟩, hl, hh,
      takeToken_of hs (dedent_of_le edge_le) rfl hp ht hm'⟩
  · refine ⟨j + 1, _, line, index, cand, .inr ⟨rfl, rfl⟩, hl, hh, takeToken_of hs ?_ rfl hp ht hm'⟩
    have hd := dedent_inBlock (j := j + 1) hk old ⟨c :: cs, line, 2 * j, index⟩ true cand
    rw [edge_succ] at hd
    exact hd

/-! ## Marks -/

theorem emitAt_inBlock (k : Nat) (newer old : List Token) (p : Place) (a : Bool) (cand : Option Candidate) (t : Token) :
    (inBlock k (newer ++ old) p a cand).emitAt old.length t = inBlock k (newer ++ t :: old) p a cand := by
  have hn : (newer ++ old).length - old.length = newer.length := by simp
  simp only [emitAt, inBlock, hn]
  simp

/-- The block of a column is open after its token was put in where it was missing. -/
theorem Innermost.openBlock {j k : Nat} {start : Token} {toks old : List Token} (h : Innermost j start toks k old)
    (hj : j < depthLimit) (newer : List Token) (p : Place) (a : Bool) (cand : Option Candidate) :
    (inBlock k (newer ++ old) p a cand).openBlock (2 * j) old.length start =
      some (inBlock (j + 1) (newer ++ toks) p a cand) := by
  rcases h with ⟨rfl, rfl⟩ | ⟨rfl, rfl⟩
  · have hlt : edge k < ((2 * k : Nat) : Int) := by rw [← edge_succ]; exact edge_lt (by omega)
    have hd : ¬ depthLimit ≤ (inBlock k (newer ++ old) p a cand).outer.length := by rw [inBlock, length_edges]; omega
    have he := emitAt_inBlock (k + 1) newer old p a cand start
    rw [Layout.openBlock, if_pos ⟨rfl, hlt⟩, if_neg hd, ← he]
    simp [inBlock, edges, edge_succ]
  · have hn : ¬ (0 = 0 ∧ edge (j + 1) < ((2 * j : Nat) : Int)) := by rw [edge_succ]; omega
    rw [Layout.openBlock]
    exact if_neg hn

theorem dropCandidate_of_loose {s : Layout} (h : Loose s.candidate) :
    s.dropCandidate = some { s with candidate := none } := by
  unfold dropCandidate
  cases hc : s.candidate with
  | none =>
    obtain ⟨⟩ := s
    simp_all
  | some c => simp [h c hc]

theorem takeMark_dash {s : Layout} {cs : List Char} (hr : s.place.rest = '-' :: ' ' :: cs) :
    s.takeMark = s.takeEntry := by
  simp [takeMark, hr, atGap, isBlank]

/-- **The mark of an entry.** -/
theorem Enters.dash {s : Layout} {j : Nat} {toks : List Token} {c : Char} {cs : List Char}
    (h : Enters s j .blockSequenceStart toks ('-' :: ' ' :: cs)) (hc : cs.head? = some c) (hv : Visible c) (h0 : 0 < j)
    (hj : j < depthLimit) :
    ∃ s', Runs 1 s s' ∧ Before s' true (j + 1) (.blockEntry :: toks) (2 * (j + 1)) cs := by
  obtain ⟨k, old, line, index, cand, hi, hl, hh, ht⟩ := h.takeToken (by decide) (by decide) (.inr h0)
  have ho := hi.openBlock hj [] ⟨'-' :: ' ' :: cs, line, 2 * j, index⟩ true cand
  have hd := dropCandidate_of_loose (s := inBlock (j + 1) toks ⟨'-' :: ' ' :: cs, line, 2 * j, index⟩ true cand) hl
  have he : (inBlock k old ⟨'-' :: ' ' :: cs, line, 2 * j, index⟩ true cand).takeMark =
      some (inBlock (j + 1) (.blockEntry :: toks) ⟨' ' :: cs, line, 2 * j + 1, index + 1⟩ true none) := by
    rw [takeMark_dash rfl, takeEntry]
    simp only [inBlock, List.nil_append] at ho hd ⊢
    simp only [ho, hd, if_true, Option.bind_some, Option.map_some]
    rfl
  refine ⟨_, runs_one hh (ht.trans (congrArg (Option.map afterToken) he)), ?_⟩
  exact before_blank (p := ⟨' ' :: cs, line, 2 * j + 1, index + 1⟩) (by simp) rfl hc hv loose_none

/-- The marks that no plain text begins with, but for the dash. -/
def marks : List Char :=
  ['?', ':', ',', '[', ']', '{', '}', '#', '&', '*', '!', '|', '>', '\'', '"', '%', '@', Char.ofNat 96]

theorem not_mem_marks {c : Char} (hc : isNameChar c = true) : c ∉ marks := by
  intro hm
  have h := List.all_eq_true.1 (by decide : marks.all (fun x => !isNameChar x) = true) c hm
  simp [hc] at h

/-- Letters, digits and underscores begin a plain text. -/
theorem takeMark_word {s : Layout} {w rest : List Char} (hw : Wordy w) (hr : s.place.rest = w ++ rest)
    (hf : s.flow = 0) : s.takeMark = s.takePlain := by
  obtain ⟨c, cs, rfl, hc⟩ := hw.exists_head
  have hne : ∀ x, isNameChar x = false → c ≠ x := fun x => ne_of_isNameChar hc
  obtain ⟨hb, hk, -, -⟩ := visible_of_isNameChar hc
  have hdash : c = '-' → atGap (cs ++ rest) = false ∧ ((cs ++ rest).head?.map isBlank).getD false = false := by
    rintro rfl
    obtain ⟨-, hd, hall⟩ := hw
    cases cs with
    | nil => exact absurd rfl hd
    | cons d ds =>
      simp only [List.all_cons, Bool.and_eq_true] at hall
      obtain ⟨hb, hk, -, -⟩ := visible_of_isNameChar hall.2.1
      simp [atGap, hb, hk]
  rw [List.cons_append] at hr
  generalize cs ++ rest = t at hdash hr
  have hs : startsPlain false (c :: t) = true := by
    by_cases h : c = '-'
    · simp [startsPlain, h, (hdash h).2]
    · change (!(isBlank c || isBreak c || ('-' :: marks).contains c) || _ || _) = true
      simp [hb, hk, h, not_mem_marks hc]
  have hd : ¬ (c = '-' ∧ atGap t = true) := by
    rintro ⟨h, ht⟩
    rw [(hdash h).1] at ht
    cases ht
  rw [takeMark, hr]
  simp only [hf, Nat.lt_irrefl, decide_false, hs, hd, hne '[' (by decide), hne '{' (by decide), hne ']' (by decide),
    hne '}' (by decide), hne ',' (by decide), hne '?' (by decide), hne ':' (by decide), hne '*' (by decide),
    hne '&' (by decide), hne '!' (by decide), hne '|' (by decide), hne '>' (by decide), hne '\'' (by decide),
    hne '"' (by decide), if_false, false_and, if_true]

theorem takeMark_colon {s : Layout} {x : List Char} (hr : s.place.rest = ':' :: x) (hx : atGap x = true) :
    s.takeMark = s.takeValue := by
  simp [takeMark, hr, hx]

/-- A candidate for a key at the place of the layout. -/
def candidateHere (s : Layout) : Candidate :=
  ⟨s.flow == 0 && s.indent == (s.place.column : Int), s.tokens.length, s.place.line, s.place.column, s.place.index⟩

theorem saveCandidate_of_loose {s : Layout} (ha : s.keyAllowed = true) (h : Loose s.candidate) :
    s.saveCandidate = some { s with candidate := some s.candidateHere } := by
  rw [saveCandidate, if_pos ha, dropCandidate_of_loose h]
  rfl

/-- The text of a key is read up to its colon, and remembered. -/
theorem takeMark_key {k : Nat} (toks : List Token) {p : Place} {cand : Option Candidate} {w x : List Char}
    (hw : Wordy w) (hd : w.head? ≠ some '-') (hx : atGap x = true) (hl : Loose cand) (hr : p.rest = w ++ ':' :: x) :
    (inBlock k toks p true cand).takeMark =
      some (inBlock k (.scalar .plain w :: toks) (p.skip w.length) false
        (some (inBlock k toks p true cand).candidateHere)) := by
  rw [takeMark_word hw hr rfl, takePlain, saveCandidate_of_loose rfl hl]
  have hp := readPlain_colon hw hx hr (.inr hd) (edge k + 1) p.rest.length
  simp only [inBlock, Option.bind_some, Nat.lt_irrefl, decide_false] at hp ⊢
  rw [hp]
  rfl

/-- **The colon after a text makes it a key**, and opens the block of its column. -/
theorem takeMark_value {j k : Nat} {toks old : List Token} (hi : Innermost j .blockMappingStart toks k old)
    (hj : j < depthLimit) {w x : List Char} (hw : w.length ≤ keyLimit) (hx : atGap x = true) (line index : Nat)
    (required : Bool) :
    (inBlock k (.scalar .plain w :: old) ⟨':' :: x, line, 2 * j + w.length, index + w.length⟩ false
        (some ⟨required, old.length, line, 2 * j, index⟩)).takeMark =
      some (inBlock (j + 1) (.value :: .scalar .plain w :: .key :: toks)
        ⟨x, line, 2 * j + w.length + 1, index + w.length + 1⟩ false none) := by
  have he := emitAt_inBlock k [.scalar .plain w] old ⟨':' :: x, line, 2 * j + w.length, index + w.length⟩ false
    (some ⟨required, old.length, line, 2 * j, index⟩) .key
  have ho := hi.openBlock hj [.scalar .plain w, .key] ⟨':' :: x, line, 2 * j + w.length, index + w.length⟩ false
    (some ⟨required, old.length, line, 2 * j, index⟩)
  rw [takeMark_colon rfl hx, takeValue]
  simp only [inBlock, List.cons_append, List.nil_append, isNear, Nat.le_refl, decide_true, Bool.true_and,
    Nat.add_le_add_iff_left, hw, if_true] at he ho ⊢
  rw [he, ho]
  rfl

theorem Innermost.edge_le {j k : Nat} {start : Token} {toks old : List Token} (h : Innermost j start toks k old) :
    edge k ≤ ((2 * j : Nat) : Int) := by
  rcases h with ⟨rfl, -⟩ | ⟨rfl, -⟩
  · exact Layout.edge_le
  · exact (edge_succ j).le

/-- **A key.** -/
theorem Enters.key {s : Layout} {j : Nat} {toks : List Token} {w x : List Char}
    (h : Enters s j .blockMappingStart toks (w ++ ':' :: x)) (hw : Wordy w) (hd : w.head? ≠ some '-')
    (hk : w.length ≤ keyLimit) (hx : atGap x = true) (hc : Uncommented x) (hj : j < depthLimit) :
    ∃ line index, Runs 2 s (inBlock (j + 1) (.value :: .scalar .plain w :: .key :: toks)
      ⟨x, line, 2 * j + w.length + 1, index⟩ false none) := by
  obtain ⟨c, cs, hcs, hn⟩ := hw.exists_head
  have hdash : c ≠ '-' := by simpa [hcs] using hd
  have hsplit : w ++ ':' :: x = c :: (cs ++ ':' :: x) := by rw [hcs, List.cons_append]
  rw [hsplit] at h
  obtain ⟨k, old, line, index, cand, hi, hl, hh, ht⟩ :=
    h.takeToken (ne_of_isNameChar hn (by decide)) (ne_of_isNameChar hn (by decide)) (.inl hdash)
  rw [← hsplit] at ht
  -- The text is read first and remembered as what may be a key.
  have hkey := takeMark_key (k := k) old (p := ⟨w ++ ':' :: x, line, 2 * j, index⟩) hw hd hx hl rfl
  have hplace : (Place.mk (w ++ ':' :: x) line (2 * j) index).skip w.length =
      ⟨':' :: x, line, 2 * j + w.length, index + w.length⟩ := by
    simp [Place.skip]
  rw [hkey, hplace, Option.map_some, afterToken_eq (by simp [inBlock, Uncommented, isBlank])] at ht
  -- Then the colon makes it one.
  have hvalue := takeMark_value hi hj hk hx line index
    ((0 : Nat) == 0 && edge k == ((2 * j : Nat) : Int))
  have hedge : edge k ≤ ((2 * j + w.length : Nat) : Int) := hi.edge_le.trans (by omega)
  refine ⟨line, index + w.length + 1, (runs_one hh ht).trans (runs_one (by simp [inBlock]) ?_)⟩
  rw [takeToken_of (skipFiller_here _ rfl (by decide)) (dedent_of_le hedge) rfl (by decide) (by decide)
    (.inl (by decide))]
  refine (congrArg (Option.map afterToken) hvalue).trans ?_
  rw [Option.map_some, afterToken_eq hc]

/-! ## Values -/

/-- How a text stands on a line: plain, or between quotes. -/
def Spelled (v : List Char) (style : Style) (w : List Char) : Prop :=
  (v = w ∧ style = .plain ∧ Wordy w) ∨ (v = '"' :: (w ++ ['"']) ∧ style = .double ∧ w.all isNameChar = true)

/-- The next line: `m` blanks before the text, or nothing at all at the end. -/
def Fresh (m : Nat) (cs : List Char) : Prop := (cs = [] → m = 0) ∧ ∀ c ∈ cs.head?, isNameChar c = true

theorem Fresh.visible {m : Nat} {cs : List Char} (h : Fresh m cs) : ∀ c ∈ cs.head?, Visible c :=
  fun c hc => visible_of_isNameChar (h.2 c hc)

/-- What stands deeper than the innermost block need not be a key. -/
theorem saveCandidate_deeper {j : Nat} (toks : List Token) {p : Place} (a : Bool) {cand : Option Candidate}
    (hl : Loose cand) (hp : 2 * j < p.column) :
    ∃ cand', Loose cand' ∧ (inBlock (j + 1) toks p a cand).saveCandidate = some (inBlock (j + 1) toks p a cand') := by
  cases a with
  | false => exact ⟨cand, hl, rfl⟩
  | true =>
    refine ⟨some (inBlock (j + 1) toks p true cand).candidateHere, ?_, saveCandidate_of_loose rfl hl⟩
    have hne : edge (j + 1) ≠ (p.column : Int) := by rw [edge_succ]; omega
    simp [Loose, candidateHere, inBlock, hne]

/-- What is read at a place deeper than the block. -/
theorem Before.runs {s : Layout} {a : Bool} {j column : Nat} {toks : List Token} {c : Char} {cs : List Char}
    (h : Before s a (j + 1) toks column cs) (hd : 2 * j < column) (hc : cs.head? = some c) (hp : c ≠ '%')
    (ht : c ≠ '.') :
    ∃ line index cand, Loose cand ∧ ∀ s', Uncommented s'.place.rest →
      (inBlock (j + 1) toks ⟨cs, line, column, index⟩ a cand).takeMark = some s' → Runs 1 s s' := by
  obtain ⟨hh, line, index, cand, hl, hs⟩ := h
  obtain ⟨cs, rfl⟩ := List.head?_eq_some_iff.1 hc
  have hedge : edge (j + 1) ≤ (column : Int) := by rw [edge_succ]; omega
  have hcol : column ≠ 0 := by omega
  refine ⟨line, index, cand, hl, fun s' hu hm => runs_one hh ?_⟩
  rw [takeToken_of hs (dedent_of_le hedge) rfl hp ht (.inr hcol), hm, Option.map_some, afterToken_eq hu]

theorem takeMark_plain {j : Nat} (toks : List Token) {p : Place} (a : Bool) {cand : Option Candidate} {w cs : List Char}
    {m : Nat} (hw : Wordy w) (hf : Fresh m cs) (hm : m ≤ 2 * j) (hl : Loose cand) (hp : 2 * j < p.column)
    (hr : p.rest = w ++ '\n' :: (List.replicate m ' ' ++ cs)) :
    ∃ line index cand', Loose cand' ∧ (inBlock (j + 1) toks p a cand).takeMark =
      some (inBlock (j + 1) (.scalar .plain w :: toks) ⟨cs, line, m, index⟩ true cand') := by
  obtain ⟨cand', hl', hsave⟩ := saveCandidate_deeper toks a hl hp
  have hi : (m : Int) < edge (j + 1) + 1 := by rw [edge_succ]; omega
  have hread := readPlain_line hw hf.visible hr (.inl (by omega)) hi p.rest.length
  refine ⟨p.line + 1, p.index + w.length + 1 + m, cand', hl', ?_⟩
  rw [takeMark_word hw hr rfl, takePlain, hsave]
  simp only [inBlock, Option.bind_some, Nat.lt_irrefl, decide_false] at hread ⊢
  rw [hread]
  rfl

theorem takeMark_quoted {j : Nat} (toks : List Token) {p : Place} (a : Bool) {cand : Option Candidate} {w x : List Char}
    (hw : w.all isNameChar = true) (hl : Loose cand) (hp : 2 * j < p.column) (hr : p.rest = '"' :: (w ++ '"' :: x)) :
    ∃ q cand', q.rest = x ∧ Loose cand' ∧ (inBlock (j + 1) toks p a cand).takeMark =
      some (inBlock (j + 1) (.scalar .double w :: toks) q false cand') := by
  obtain ⟨cand', hl', hsave⟩ := saveCandidate_deeper toks a hl hp
  have hquote : (inBlock (j + 1) toks p a cand).takeMark = (inBlock (j + 1) toks p a cand).takeQuoted .double := by
    simp [takeMark, inBlock, hr]
  have hread := readQuoted_append (p := p.skip 1) (x := x) hw (by simp [Place.skip, hr]) (by simp [Place.skip])
    p.rest.length
  refine ⟨(p.skip 1).skip (w.length + 1), cand', by simp [Place.skip, hr], hl', ?_⟩
  rw [hquote, takeQuoted, hsave]
  simp only [inBlock, Option.bind_some, beq_self_eq_true] at hread ⊢
  rw [hread]
  rfl

/-- **A text at the end of a line.** -/
theorem Before.scalar {s : Layout} {a : Bool} {j column m : Nat} {toks : List Token} {v w cs : List Char}
    {style : Style} (h : Before s a (j + 1) toks column (v ++ '\n' :: (List.replicate m ' ' ++ cs)))
    (hv : Spelled v style w) (hd : 2 * j < column) (hf : Fresh m cs) (hm : m ≤ 2 * j) :
    ∃ s', Runs 1 s s' ∧ Before s' true (j + 1) (.scalar style w :: toks) m cs := by
  rcases hv with ⟨rfl, rfl, hw⟩ | ⟨rfl, rfl, hw⟩
  · obtain ⟨c, v', hv', hn⟩ := hw.exists_head
    obtain ⟨line, index, cand, hl, hrun⟩ :=
      h.runs hd (by rw [hv']; rfl) (ne_of_isNameChar hn (by decide)) (ne_of_isNameChar hn (by decide))
    obtain ⟨line', index', cand', hl', ht⟩ := takeMark_plain toks a
      (p := ⟨v ++ '\n' :: (List.replicate m ' ' ++ cs), line, column, index⟩) hw hf hm hl hd rfl
    exact ⟨_, hrun _ (uncommented_of_visible hf.visible) ht, before_here (by simp) hf.visible hl'⟩
  · obtain ⟨line, index, cand, hl, hrun⟩ := h.runs hd rfl (by decide) (by decide)
    obtain ⟨q, cand', hq, hl', ht⟩ := takeMark_quoted toks a
      (p := ⟨'"' :: (w ++ ['"']) ++ '\n' :: (List.replicate m ' ' ++ cs), line, column, index⟩) hw hl hd (by simp; rfl)
    exact ⟨_, hrun _ (by simp [inBlock, hq, Uncommented, isBlank]) ht, before_break (by simp) hq hf.1 hf.visible hl'⟩

/-- **Empty brackets at the end of a line.** -/
theorem Before.brackets {s : Layout} {a : Bool} {j column m : Nat} {toks : List Token} {cs : List Char}
    (h : Before s a (j + 1) toks column ('[' :: ']' :: '\n' :: (List.replicate m ' ' ++ cs)))
    (hd : 2 * j < column) (hf : Fresh m cs) :
    ∃ s', Runs 2 s s' ∧ Before s' true (j + 1) (.flowSequenceEnd :: .flowSequenceStart :: toks) m cs := by
  obtain ⟨line, index, cand, hl, hrun⟩ := h.runs hd rfl (by decide) (by decide)
  set x := '\n' :: (List.replicate m ' ' ++ cs) with hx
  obtain ⟨cand', hl', hsave⟩ :=
    saveCandidate_deeper toks (p := ⟨'[' :: ']' :: x, line, column, index⟩) a hl hd
  have hopen : (inBlock (j + 1) toks ⟨'[' :: ']' :: x, line, column, index⟩ a cand).takeMark =
      some ⟨⟨']' :: x, line, column + 1, index + 1⟩, edge (j + 1), edges (j + 1), 1, true, none, [cand'],
        .flowSequenceStart :: toks⟩ := by
    have ht : (inBlock (j + 1) toks ⟨'[' :: ']' :: x, line, column, index⟩ a cand).takeMark =
        (inBlock (j + 1) toks ⟨'[' :: ']' :: x, line, column, index⟩ a cand).takeOpen .flowSequenceStart := rfl
    rw [ht, takeOpen, hsave]
    rfl
  have hclose : takeToken ⟨⟨']' :: x, line, column + 1, index + 1⟩, edge (j + 1), edges (j + 1), 1, true, none, [cand'],
      .flowSequenceStart :: toks⟩ = some (inBlock (j + 1) (.flowSequenceEnd :: .flowSequenceStart :: toks)
        ⟨x, line, column + 2, index + 2⟩ false cand') := by
    rw [takeToken_of (skipFiller_here _ rfl (by decide)) rfl rfl (by decide) (by decide) (.inl (by decide))]
    refine (congrArg (Option.map afterToken) (rfl : _ = some (inBlock (j + 1)
      (.flowSequenceEnd :: .flowSequenceStart :: toks) ⟨x, line, column + 2, index + 2⟩ false cand'))).trans ?_
    rw [Option.map_some, afterToken_eq (by simp [inBlock, hx, Uncommented, isBlank])]
  refine ⟨_, (hrun _ (by simp [Uncommented, isBlank]) hopen).trans (runs_one (by simp) hclose), ?_⟩
  exact before_break (by simp) hx hf.1 hf.visible hl'

/-! ## Parts of blocks -/

/-- Blocks that are still open may be closed later. -/
theorem Waits.close {s : Layout} {j column : Nat} {toks : List Token} {cs : List Char}
    (h : Waits s (j + 1) toks column cs) : Waits s j (.blockEnd :: toks) column cs := by
  obtain ⟨k, old, hk, rfl, hb⟩ := h
  have hr : k - (j + 1) = (k - (j + 1 + 1)) + 1 := by omega
  exact ⟨k, old, by omega, by rw [hr, List.replicate_succ, List.cons_append], hb⟩

theorem Before.waits {s : Layout} {j column : Nat} {toks : List Token} {cs : List Char}
    (h : Before s true (j + 1) toks column cs) : Waits s j toks column cs :=
  ⟨j + 1, toks, by omega, by simp, h⟩

/-- **The lines `u` are cut into the tokens `ts`** in a block at the column `2 * j` that begins with `start`, whatever
line follows that is not deeper.  The blanks before the first of them are not part of `u`. -/
structure Scans (j : Nat) (start : Token) (u : List Char) (ts : List Token) : Prop where
  head : ∃ c u', u = c :: u' ∧ isNameChar c = true
  run : ∀ {s : Layout} {toks : List Token} {m : Nat} {cs : List Char}, Fresh m cs → m ≤ 2 * j →
    Enters s j start toks (u ++ (List.replicate m ' ' ++ cs)) →
      ∃ n s', n ≤ u.length ∧ Runs n s s' ∧ Waits s' j (ts.reverse ++ toks) m cs

theorem Scans.fresh {j : Nat} {start : Token} {u : List Char} {ts : List Token} (h : Scans j start u ts)
    (m : Nat) (cs : List Char) : Fresh m (u ++ cs) := by
  obtain ⟨c, u', rfl, hc⟩ := h.head
  simp [Fresh, hc]

/-- Lines after lines. -/
theorem Scans.append {j : Nat} {start : Token} {u v : List Char} {ts ts' : List Token} (hu : Scans j start u ts)
    (hv : Scans j start v ts') : Scans j start (u ++ (List.replicate (2 * j) ' ' ++ v)) (ts ++ ts') := by
  obtain ⟨c, u', rfl, hc⟩ := hu.head
  refine ⟨⟨c, _, rfl, hc⟩, ?_⟩
  intro s toks m cs hf hm h
  rw [List.append_assoc, List.append_assoc] at h
  obtain ⟨n, s₁, hn, hr, hw⟩ := hu.run (hv.fresh _ _) (Nat.le_refl _) h
  obtain ⟨n', s₂, hn', hr', hw'⟩ := hv.run hf hm (.inr hw)
  refine ⟨n + n', s₂, ?_, hr.trans hr', ?_⟩
  · simp only [List.length_append] at hn' ⊢
    omega
  · rw [List.reverse_append, List.append_assoc]
    exact hw'

/-- **The value `v` at the end of a line is cut into the tokens `ts`** where it stands deeper than the column `2 * j`,
and the next line does not. -/
structure Value (j : Nat) (v : List Char) (ts : List Token) : Prop where
  head : ∃ c, v.head? = some c ∧ Visible c
  run : ∀ {s : Layout} {a : Bool} {column m : Nat} {toks : List Token} {cs : List Char}, Fresh m cs → m ≤ 2 * j →
    2 * j < column → Before s a (j + 1) toks column (v ++ '\n' :: (List.replicate m ' ' ++ cs)) →
      ∃ n s', n ≤ v.length ∧ Runs n s s' ∧ Before s' true (j + 1) (ts.reverse ++ toks) m cs

theorem Spelled.value {v w : List Char} {style : Style} (h : Spelled v style w) (j : Nat) :
    Value j v [.scalar style w] := by
  obtain ⟨c, v', rfl, hc⟩ : ∃ c v', v = c :: v' ∧ Visible c := by
    rcases h with ⟨rfl, -, hw⟩ | ⟨rfl, -, -⟩
    · obtain ⟨c, v', hv', hc⟩ := hw.exists_head
      exact ⟨c, v', hv', visible_of_isNameChar hc⟩
    · exact ⟨'"', _, rfl, by decide⟩
  refine ⟨⟨c, rfl, hc⟩, ?_⟩
  intro s a column m toks cs hf hm hd hb
  obtain ⟨s', hs, hb'⟩ := hb.scalar h hd hf hm
  exact ⟨1, s', by simp, hs, hb'⟩

theorem value_brackets (j : Nat) : Value j ['[', ']'] [.flowSequenceStart, .flowSequenceEnd] := by
  refine ⟨⟨'[', rfl, by decide⟩, ?_⟩
  intro s a column m toks cs hf hm hd hb
  obtain ⟨s', hs, hb'⟩ := Before.brackets hb hd hf
  exact ⟨2, s', Nat.le_refl _, hs, hb'⟩

/-- The name of a field. -/
structure FieldName (w : List Char) : Prop where
  wordy : Wordy w
  undashed : w.head? ≠ some '-'
  short : w.length ≤ keyLimit

/-- The tokens of a field with those of its value. -/
def fieldTokens (w : List Char) (ts : List Token) : List Token := .key :: .scalar .plain w :: .value :: ts

/-- **A field with its value on the line.** -/
theorem Value.field {j : Nat} {w v : List Char} {ts : List Token} (hv : Value j v ts) (hw : FieldName w)
    (hj : j < depthLimit) : Scans j .blockMappingStart (w ++ ':' :: ' ' :: (v ++ ['\n'])) (fieldTokens w ts) := by
  obtain ⟨c, w', hcw, hc⟩ := hw.wordy.exists_head
  refine ⟨⟨c, _, by rw [hcw]; rfl, hc⟩, ?_⟩
  intro s toks m cs hf hm h
  obtain ⟨d, hdv, hd⟩ := hv.head
  have hhead : (v ++ '\n' :: (List.replicate m ' ' ++ cs)).head? = some d := by simp [hdv]
  have htext : w ++ ':' :: ' ' :: (v ++ ['\n']) ++ (List.replicate m ' ' ++ cs) =
      w ++ ':' :: ' ' :: (v ++ '\n' :: (List.replicate m ' ' ++ cs)) := by simp
  rw [htext] at h
  obtain ⟨line, index, hkey⟩ := h.key hw.wordy hw.undashed hw.short rfl (uncommented_blank hhead hd) hj
  have hvalue := before_blank (k := j + 1) (a := false) (p := ⟨_, line, 2 * j + w.length + 1, index⟩)
    (by simp : (Token.value :: .scalar .plain w :: .key :: toks).head? ≠ some .streamEnd) rfl hhead hd loose_none
  obtain ⟨n, s', hn, hs, hb⟩ := hv.run hf hm (by dsimp only; omega) hvalue
  refine ⟨2 + n, s', by simp; omega, hkey.trans hs, ?_⟩
  simpa [fieldTokens] using hb.waits

/-- **A field with lines below it**, which are a block of their own. -/
theorem Scans.field {j : Nat} {w u : List Char} {start : Token} {ts : List Token} (hu : Scans (j + 1) start u ts)
    (hw : FieldName w) (hj : j < depthLimit) :
    Scans j .blockMappingStart (w ++ ':' :: '\n' :: (List.replicate (2 * (j + 1)) ' ' ++ u))
      (fieldTokens w (start :: ts ++ [.blockEnd])) := by
  obtain ⟨c, w', hcw, hc⟩ := hw.wordy.exists_head
  refine ⟨⟨c, _, by rw [hcw]; rfl, hc⟩, ?_⟩
  intro s toks m cs hf hm h
  have htext : w ++ ':' :: '\n' :: (List.replicate (2 * (j + 1)) ' ' ++ u) ++ (List.replicate m ' ' ++ cs) =
      w ++ ':' :: '\n' :: (List.replicate (2 * (j + 1)) ' ' ++ (u ++ (List.replicate m ' ' ++ cs))) := by simp
  rw [htext] at h
  obtain ⟨line, index, hkey⟩ := h.key hw.wordy hw.undashed hw.short rfl (by simp [Uncommented, isBlank]) hj
  have hfu := hu.fresh (2 * (j + 1)) (List.replicate m ' ' ++ cs)
  have hb := before_break (k := j + 1) (a := false) (p := ⟨_, line, 2 * j + w.length + 1, index⟩)
    (by simp : (Token.value :: .scalar .plain w :: .key :: toks).head? ≠ some .streamEnd) rfl hfu.1 hfu.visible
    loose_none
  obtain ⟨n, s', hn, hs, hw'⟩ := hu.run hf (by omega) (.inl ⟨_, rfl, hb⟩)
  refine ⟨2 + n, s', by simp; omega, hkey.trans hs, ?_⟩
  simpa [fieldTokens] using hw'.close

/-- **An item with its value on the line.** -/
theorem Value.item {j : Nat} {v : List Char} {ts : List Token} (hv : Value j v ts) (h0 : 0 < j) (hj : j < depthLimit) :
    Scans j .blockSequenceStart ('-' :: ' ' :: (v ++ ['\n'])) (.blockEntry :: ts) := by
  refine ⟨⟨'-', _, rfl, by decide⟩, ?_⟩
  intro s toks m cs hf hm h
  obtain ⟨d, hdv, hd⟩ := hv.head
  have htext : '-' :: ' ' :: (v ++ ['\n']) ++ (List.replicate m ' ' ++ cs) =
      '-' :: ' ' :: (v ++ '\n' :: (List.replicate m ' ' ++ cs)) := by simp
  rw [htext] at h
  obtain ⟨s₁, hdash, hb⟩ := h.dash (by simp [hdv]) hd h0 hj
  obtain ⟨n, s', hn, hs, hb'⟩ := hv.run hf hm (by omega) hb
  refine ⟨1 + n, s', by simp; omega, hdash.trans hs, ?_⟩
  simpa using hb'.waits

/-- **An item with fields**, the first on the line of its dash. -/
theorem Scans.item {j : Nat} {u : List Char} {start : Token} {ts : List Token} (hu : Scans (j + 1) start u ts)
    (h0 : 0 < j) (hj : j < depthLimit) :
    Scans j .blockSequenceStart ('-' :: ' ' :: u) (.blockEntry :: start :: ts ++ [.blockEnd]) := by
  refine ⟨⟨'-', _, rfl, by decide⟩, ?_⟩
  intro s toks m cs hf hm h
  obtain ⟨c, u', hcu, hc⟩ := hu.head
  obtain ⟨s₁, hdash, hb⟩ := h.dash (by rw [hcu]; rfl) (visible_of_isNameChar hc) h0 hj
  obtain ⟨n, s', hn, hs, hw⟩ := hu.run hf (by omega) (.inl ⟨_, rfl, hb⟩)
  refine ⟨1 + n, s', by simp; omega, hdash.trans hs, ?_⟩
  simpa using hw.close

/-! ## Whole texts -/

/-- At the end of the text all blocks are closed. -/
theorem Waits.takeToken {s : Layout} {toks : List Token} (h : Waits s 0 toks 0 []) :
    ∃ s', s.tokens.head? ≠ some .streamEnd ∧ s.takeToken = some s' ∧ s'.tokens = .streamEnd :: .blockEnd :: toks := by
  obtain ⟨k, old, hk, rfl, hh, line, index, cand, hl, hs⟩ := h
  have hd := dedent_inBlock (j := 1) hk old ⟨[], line, 0, index⟩ true cand
  set toks := List.replicate (k - (0 + 1)) .blockEnd ++ old
  have hd' := dedent_inBlock (Nat.zero_le 1) toks ⟨[], line, 0, index⟩ true cand
  have hc := dropCandidate_of_loose (s := inBlock 0 (.blockEnd :: toks) ⟨[], line, 0, index⟩ true cand) hl
  have hend : (inBlock 1 toks ⟨[], line, 0, index⟩ true cand).takeEnd =
      some (inBlock 0 (.streamEnd :: .blockEnd :: toks) ⟨[], line, 0, index⟩ false none) := by
    rw [takeEnd]
    refine (congrArg (fun s : Layout => s.dropCandidate.map _) hd').trans ?_
    exact congrArg (Option.map _) hc
  refine ⟨inBlock 0 (.streamEnd :: .blockEnd :: toks) ⟨[], line, 0, index⟩ false none, hh, ?_, rfl⟩
  rw [Layout.takeToken]
  simp only [hs]
  rw [show ((inBlock k old ⟨[], line, 0, index⟩ true cand).place.column : Int) = edge 1 from rfl, hd]
  exact hend

end Layout

/-- **A text of fields is cut into their tokens**, in a block from its start to its end. -/
theorem tokensOf_eq {u : List Char} {ts : List Token} (h : Layout.Scans 0 .blockMappingStart u ts)
    (ha : u.all isAllowed = true) : tokensOf u = (.blockMappingStart :: ts ++ [.blockEnd, .streamEnd], true) := by
  obtain ⟨c, u', hu, hc⟩ := h.head
  have hstart : Layout.Enters (.start u) 0 .blockMappingStart [.blockMappingStart]
      (u ++ (List.replicate 0 ' ' ++ [])) := by
    have hb := Layout.before_here (k := 0) (p := Place.start u) (a := true) (by simp : ([] : List Token).head? ≠ _)
      (by simpa [Place.start, hu] using visible_of_isNameChar hc) Layout.loose_none
    rw [List.replicate_zero, List.nil_append, List.append_nil]
    exact .inl ⟨[], rfl, hb⟩
  obtain ⟨n, s, hn, hr, hw⟩ := h.run (by simp [Layout.Fresh]) (Nat.le_refl _) hstart
  obtain ⟨s', hh, ht, htoks⟩ := hw.takeToken
  have hrun : Layout.run (u.length + 2) (.start u) = (s', true) := by
    have hfuel : u.length + 2 = n + ((u.length - n) + 1 + 1) := by omega
    rw [hfuel, hr, Layout.run, if_neg hh, ht]
    simp [Layout.run, htoks]
  rw [tokensOf]
  · simp [ha, hrun, htoks]
  · rintro rest rfl
    exact ne_of_isNameChar hc (by decide) (List.cons.inj hu).1.symm

end Yaml
end LoopNest
