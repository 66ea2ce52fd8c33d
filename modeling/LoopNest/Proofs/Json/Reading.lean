import Mathlib
import LoopNest.Json.Overlay
import LoopNest.Proofs.Text.Numerals
/-!
# Proofs.Json.Reading — values that are written can be read

`Reads room v t` says that the reader takes the text `t` for the value `v`, whatever comes after it.  Texts and numbers
are read back character by character (`readText_escaped`, `readNumber_signedDigits`); a list or an object is read when
each of its parts is, whichever blanks stand between them (`readItems_listed`, `readMembers_listed`).  A value that
nests at most so deep and whose numbers are whole is therefore read from its lines (`Fits.reads_indented`) and from one
line without blanks (`Fits.reads_compact`).
-/
namespace LoopNest
namespace Json

open Text (signedDigits decimalDigits isDecimalDigit hexDigits)

/-! ## Blanks -/

/-- Nothing but blanks. -/
def Blank (b : List Char) : Prop := ∀ c ∈ b, isBlank c = true

theorem eq_of_isBlank {c : Char} (h : isBlank c = true) : c = ' ' ∨ c = '\t' ∨ c = '\n' ∨ c = '\r' := by
  simpa [isBlank, or_assoc] using h

theorem blank_newLine (depth : Nat) : Blank (newLine depth) := by
  intro c hc
  rcases List.mem_cons.1 hc with rfl | hc
  · rfl
  · rw [List.eq_of_mem_replicate hc]
    rfl

theorem skipBlanks_append {b : List Char} (h : Blank b) (cs : List Char) : skipBlanks (b ++ cs) = skipBlanks cs :=
  List.dropWhile_append_of_pos h

theorem skipBlanks_cons {c : Char} (h : isBlank c = false) (cs : List Char) : skipBlanks (c :: cs) = c :: cs := by
  simp [skipBlanks, h]

theorem skipBlanks_idem (cs : List Char) : skipBlanks (skipBlanks cs) = skipBlanks cs :=
  List.dropWhile_idempotent ..

theorem readValue_skipBlanks (fuel room : Nat) (cs : List Char) :
    readValue fuel room (skipBlanks cs) = readValue fuel room cs := by
  cases fuel with
  | zero => rfl
  | succ fuel => rw [readValue, readValue, skipBlanks_idem]

theorem readItems_skipBlanks (fuel room : Nat) (cs : List Char) :
    readItems fuel room (skipBlanks cs) = readItems fuel room cs := by
  cases fuel with
  | zero => rfl
  | succ fuel => rw [readItems, readItems, readValue_skipBlanks]

theorem readMembers_skipBlanks (fuel room : Nat) (cs : List Char) :
    readMembers fuel room (skipBlanks cs) = readMembers fuel room cs := by
  cases fuel with
  | zero => rfl
  | succ fuel => rw [readMembers, readMembers, skipBlanks_idem]

theorem readValue_append {b : List Char} (h : Blank b) (fuel room : Nat) (cs : List Char) :
    readValue fuel room (b ++ cs) = readValue fuel room cs := by
  rw [← readValue_skipBlanks, skipBlanks_append h, readValue_skipBlanks]

theorem readItems_append {b : List Char} (h : Blank b) (fuel room : Nat) (cs : List Char) :
    readItems fuel room (b ++ cs) = readItems fuel room cs := by
  rw [← readItems_skipBlanks, skipBlanks_append h, readItems_skipBlanks]

theorem readMembers_append {b : List Char} (h : Blank b) (fuel room : Nat) (cs : List Char) :
    readMembers fuel room (b ++ cs) = readMembers fuel room cs := by
  rw [← readMembers_skipBlanks, skipBlanks_append h, readMembers_skipBlanks]

/-! ## Texts -/

theorem readText_unit {c : Char} (h : c.toNat < 0xD800) (rest : List Char) :
    readText ('\\' :: 'u' :: hexDigits 4 c.toNat ++ rest) = (readText rest).map (fun r => (c :: r.1, r.2)) := by
  have hn : Text.hexNumber? (hexDigits 4 c.toNat) = some c.toNat := Text.hexNumber?_hexDigits 4 _ (by omega)
  have hp : pairedChar? c.toNat rest = none := by
    unfold pairedChar?
    split
    · split
      · rw [if_neg (by omega)]
      · rfl
    · rfl
  have hu : unitChar c.toNat = c := by rw [unitChar, if_neg (by omega), Char.ofNat_toNat]
  simp only [hexDigits, List.nil_append, List.cons_append] at hn ⊢
  rw [readText, hn]
  simp only [hp, hu]

theorem readText_escape {e c : Char} (hu : e ≠ 'u') (h : escapeOf? e = some c) (rest : List Char) :
    readText ('\\' :: e :: rest) = (readText rest).map (fun r => (c :: r.1, r.2)) := by
  rw [readText]
  · rw [h]
  · exact fun _ _ _ _ _ he _ => hu he

theorem readText_plain {c : Char} (hq : c ≠ '"') (hs : c ≠ '\\') (hl : ¬ c.toNat < 0x20) (rest : List Char) :
    readText (c :: rest) = (readText rest).map (fun r => (c :: r.1, r.2)) := by
  rw [readText]
  · rw [if_neg (by simp [hl, hs])]
  · exact hq
  · exact fun _ _ _ _ _ hc _ => hs hc
  · exact fun _ _ hc _ => hs hc

/-- **A character is read back from how it is written inside a text.** -/
theorem readText_escapedChar (c : Char) (rest : List Char) :
    readText (escapedChar c ++ rest) = (readText rest).map (fun r => (c :: r.1, r.2)) := by
  unfold escapedChar
  split_ifs with hq hs hb hf hn hr ht hu
  · subst hq
    exact readText_escape (by decide) rfl rest
  · subst hs
    exact readText_escape (by decide) rfl rest
  · subst hb
    exact readText_escape (by decide) rfl rest
  · subst hf
    exact readText_escape (by decide) rfl rest
  · subst hn
    exact readText_escape (by decide) rfl rest
  · subst hr
    exact readText_escape (by decide) rfl rest
  · subst ht
    exact readText_escape (by decide) rfl rest
  · refine readText_unit ?_ rest
    rcases hu with hu | rfl | rfl | rfl | rfl | rfl
    · omega
    all_goals decide
  · exact readText_plain hq hs (fun h => hu (.inl h)) rest

theorem readText_escaped : ∀ (s rest : List Char), readText (s.flatMap escapedChar ++ '"' :: rest) = some (s, rest)
  | [], rest => by simp [readText]
  | c :: s, rest => by
    rw [List.flatMap_cons, List.append_assoc, readText_escapedChar, readText_escaped s rest]
    rfl

/-! ## Numbers -/

/-- What cannot go on with the number that stands before it. -/
def NumberEnds (rest : List Char) : Prop :=
  ∀ c ∈ rest.head?, isDecimalDigit c = false ∧ c ≠ '.' ∧ c ≠ 'e' ∧ c ≠ 'E'

theorem numberEnds_cons {c : Char} (h : isDecimalDigit c = false ∧ c ≠ '.' ∧ c ≠ 'e' ∧ c ≠ 'E') (rest : List Char) :
    NumberEnds (c :: rest) := by
  intro x hx
  obtain rfl : c = x := by simpa using hx
  exact h

theorem numberEnds_append {b : List Char} (h : Blank b) {rest : List Char} (hr : NumberEnds rest) :
    NumberEnds (b ++ rest) := by
  cases b with
  | nil => exact hr
  | cons c b =>
    refine numberEnds_cons ?_ _
    rcases eq_of_isBlank (h c List.mem_cons_self) with rfl | rfl | rfl | rfl <;> decide

theorem readSomeDigits_append {ds rest : List Char} (hne : ds ≠ []) (hd : ∀ c ∈ ds, isDecimalDigit c = true)
    (hr : NumberEnds rest) : readSomeDigits (ds ++ rest) = some (ds, rest) := by
  have ht : rest.takeWhile isDecimalDigit = [] ∧ rest.dropWhile isDecimalDigit = rest := by
    cases rest with
    | nil => exact ⟨rfl, rfl⟩
    | cons c rest => simp [(hr c rfl).1]
  unfold readSomeDigits
  rw [List.takeWhile_append_of_pos hd, List.dropWhile_append_of_pos hd, ht.1, ht.2, List.append_nil]
  cases ds with
  | nil => exact absurd rfl hne
  | cons c ds => rfl

theorem readFraction_of_numberEnds {rest : List Char} (h : NumberEnds rest) : readFraction rest = some ([], rest) := by
  unfold readFraction
  split
  · exact absurd rfl (h '.' rfl).2.1
  · rfl

theorem readExponent_of_numberEnds {rest : List Char} (h : NumberEnds rest) : readExponent rest = some ([], rest) := by
  unfold readExponent
  split
  · exact absurd rfl (h 'e' rfl).2.2.1
  · exact absurd rfl (h 'E' rfl).2.2.2
  · rfl

theorem readMagnitude_decimalDigits (n : Nat) {rest : List Char} (h : NumberEnds rest) :
    readMagnitude (decimalDigits n ++ rest) = some (decimalDigits n, rest) := by
  have hw : readWhole (decimalDigits n ++ rest) = some (decimalDigits n, rest) := by
    rcases Text.decimalDigits_cases n with ⟨rfl, hz⟩ | ⟨c, cs, hn, hc, -⟩
    · rw [hz]
      rfl
    · have hr := readSomeDigits_append (Text.decimalDigits_ne_nil n) (Text.isDecimalDigit_of_mem_decimalDigits n) h
      rw [hn, List.cons_append] at hr ⊢
      rw [readWhole, hr]
      rintro _ ⟨⟩
      exact hc rfl
  simp [readMagnitude, hw, readFraction_of_numberEnds h, readExponent_of_numberEnds h]

theorem readNumber_signedDigits (i : Int) {rest : List Char} (h : NumberEnds rest) :
    readNumber (signedDigits i ++ rest) = some (signedDigits i, rest) := by
  cases i with
  | ofNat n =>
    have hm := readMagnitude_decimalDigits n h
    rcases Text.decimalDigits_cases n with ⟨rfl, hz⟩ | ⟨c, cs, hn, -, hc⟩
    · rw [hz] at hm
      rw [signedDigits, hz]
      exact hm
    · rw [hn] at hm
      rw [signedDigits, hn, List.cons_append, readNumber]
      · exact hm
      · exact fun _ hd => Text.ne_of_isDecimalDigit hc (by decide) (List.cons.inj hd).1
  | negSucc n => simp [signedDigits, readNumber, readMagnitude_decimalDigits (n + 1) h]

/-! ## Values -/

/-- **A text that is read as a value**, whatever comes after it. -/
def Reads (room : Nat) (v : Json) (t : List Char) : Prop :=
  ∀ fuel rest, 2 * t.length ≤ fuel → NumberEnds rest → readValue fuel room (t ++ rest) = some (v, rest)

/-- A value is read from a text that starts with a character that is no blank as that character says. -/
theorem reads_of_step {room : Nat} {v : Json} {c : Char} {t : List Char}
    (h : ∀ fuel rest, 2 * t.length + 1 ≤ fuel → NumberEnds rest →
      readValue (fuel + 1) room (c :: t ++ rest) = some (v, rest)) : Reads room v (c :: t) := by
  intro fuel rest hf hr
  rw [List.length_cons] at hf
  obtain ⟨fuel, rfl⟩ : ∃ k, fuel = k + 1 := ⟨fuel - 1, by omega⟩
  exact h fuel rest (by omega) hr

theorem reads_null (room : Nat) : Reads room .null ['n', 'u', 'l', 'l'] :=
  reads_of_step fun _ _ _ _ => rfl

theorem reads_true (room : Nat) : Reads room (.bool true) ['t', 'r', 'u', 'e'] :=
  reads_of_step fun _ _ _ _ => rfl

theorem reads_false (room : Nat) : Reads room (.bool false) ['f', 'a', 'l', 's', 'e'] :=
  reads_of_step fun _ _ _ _ => rfl

theorem reads_string (room : Nat) (s : String) : Reads room (.string s) (quotedText s) := by
  refine reads_of_step fun fuel rest _ _ => ?_
  have : readText (s.toList.flatMap escapedChar ++ ['"'] ++ rest) = some (s.toList, rest) := by
    rw [List.append_assoc]
    exact readText_escaped s.toList rest
  change (readText (s.toList.flatMap escapedChar ++ ['"'] ++ rest)).map _ = _
  rw [this]
  simp

theorem readValue_number {c : Char} (h : c = '-' ∨ isDecimalDigit c = true) (fuel room : Nat) (cs : List Char) :
    readValue (fuel + 1) room (c :: cs) = (readNumber (c :: cs)).map (fun r => (.number r.1, r.2)) := by
  have hne : ∀ x, x ≠ '-' → isDecimalDigit x = false → c ≠ x := by
    rcases h with rfl | h
    · exact fun x hx _ => hx.symm
    · exact fun x _ hx => Text.ne_of_isDecimalDigit h hx
  have hb : isBlank c = false := by
    rw [Bool.eq_false_iff]
    intro hc
    rcases eq_of_isBlank hc with rfl | rfl | rfl | rfl <;> exact hne _ (by decide) (by decide) rfl
  rw [readValue, skipBlanks_cons hb]
  split
  all_goals first
    | rfl
    | exact absurd (List.cons.inj ‹_›).1 (hne _ (by decide) (by decide))

theorem reads_int (room : Nat) (i : Int) : Reads room (.int i) (signedDigits i) := by
  obtain ⟨c, cs, hi, hc⟩ := Text.signedDigits_cases i
  rw [int, hi]
  refine reads_of_step fun fuel rest _ hr => ?_
  have hn := readNumber_signedDigits i hr
  rw [hi] at hn
  rw [List.cons_append] at hn ⊢
  rw [readValue_number hc, hn]
  rfl

/-! ## Lists and objects -/

theorem readValue_closing (fuel room : Nat) (cs : List Char) : readValue fuel room (']' :: cs) = none := by
  cases fuel with
  | zero => rfl
  | succ fuel => rfl

/-- A bracket opens a list of whatever items are read after it: no item starts with the closing bracket. -/
theorem readValue_of_readItems {fuel room : Nat} {cs : List Char} {r : List Json × List Char}
    (h : readItems fuel room cs = some r) : readValue (fuel + 1) (room + 1) ('[' :: cs) = some (.array r.1, r.2) := by
  rw [readValue, skipBlanks_cons rfl]
  simp only [Nat.add_one_ne_zero, if_false, Nat.add_sub_cancel]
  split
  · rename_i hs
    rw [← readItems_skipBlanks, hs] at h
    cases fuel with
    | zero => simp [readItems] at h
    | succ fuel => simp [readItems, readValue_closing] at h
  · rw [readItems_skipBlanks, h]
    rfl

theorem readValue_of_readMembers {fuel room : Nat} {cs : List Char} {r : List (String × Json) × List Char}
    (h : readMembers fuel room cs = some r) :
    readValue (fuel + 1) (room + 1) ('{' :: cs) = some (.object r.1, r.2) := by
  rw [readValue, skipBlanks_cons rfl]
  simp only [Nat.add_one_ne_zero, if_false, Nat.add_sub_cancel]
  split
  · rename_i hs
    rw [← readMembers_skipBlanks, hs] at h
    cases fuel with
    | zero => simp [readMembers] at h
    | succ fuel =>
      rw [readMembers, skipBlanks_cons (by decide)] at h
      simp at h
  · rw [readMembers_skipBlanks, h]
    rfl

/-- Parts with commas between them, and blanks after each comma. -/
def listed {α : Type} (blanks : List Char) (write : α → List Char) : List α → List Char
  | [] => []
  | [a] => write a
  | a :: b :: rest => write a ++ ',' :: blanks ++ listed blanks write (b :: rest)

theorem readItems_listed {room : Nat} {write : Json → List Char} {b e : List Char} (hb : Blank b) (he : Blank e) :
    ∀ {items : List Json}, items ≠ [] → (∀ v ∈ items, Reads room v (write v)) →
      ∀ fuel rest, 2 * (listed b write items).length < fuel →
        readItems fuel room (listed b write items ++ e ++ ']' :: rest) = some (items, rest)
  | [v], _, h, fuel + 1, rest, hf => by
    have hn : NumberEnds (e ++ ']' :: rest) := numberEnds_append he (numberEnds_cons (by decide) rest)
    rw [listed] at *
    rw [readItems, List.append_assoc, h v List.mem_cons_self fuel _ (by omega) hn]
    simp only [skipBlanks_append he, skipBlanks_cons (c := ']') rfl]
  | v :: w :: items, _, h, fuel + 1, rest, hf => by
    have hn : ∀ cs, NumberEnds (',' :: cs) := numberEnds_cons (by decide)
    simp only [listed, List.length_append, List.length_cons] at hf
    have ih := readItems_listed hb he (List.cons_ne_nil w items) (fun u hu => h u (List.mem_cons_of_mem v hu)) fuel
      rest (by omega)
    rw [readItems, listed]
    simp only [List.append_assoc, List.cons_append]
    rw [h v List.mem_cons_self fuel _ (by omega) (hn _)]
    simp only [skipBlanks_cons (c := ',') rfl, readItems_append hb]
    rw [← List.append_assoc, ih]
    rfl

/-- A member with blanks after its colon. -/
def member (blanks : List Char) (write : Json → List Char) (m : String × Json) : List Char :=
  quotedText m.1 ++ ':' :: blanks ++ write m.2

/-- After a member comes a comma and another one, or the end. -/
theorem readMembers_member {room fuel : Nat} {write : Json → List Char} {b : List Char} (hb : Blank b)
    {m : String × Json} (h : Reads room m.2 (write m.2)) {rest : List Char} (hr : NumberEnds rest)
    (hf : 2 * (write m.2).length ≤ fuel) :
    (∀ cs, skipBlanks rest = ',' :: cs → readMembers (fuel + 1) room (member b write m ++ rest) =
      (readMembers fuel room cs).map (fun r => (m :: r.1, r.2))) ∧
    ∀ cs, skipBlanks rest = '}' :: cs → readMembers (fuel + 1) room (member b write m ++ rest) = some ([m], cs) := by
  have ht : ∀ cs, readText (m.1.toList.flatMap escapedChar ++ '"' :: cs) = some (m.1.toList, cs) := readText_escaped _
  refine ⟨fun cs hcs => ?_, fun cs hcs => ?_⟩
  all_goals
    rw [readMembers]
    simp only [member, quotedText, List.append_assoc, List.cons_append, List.nil_append, skipBlanks_cons (c := '"') rfl,
      ht, skipBlanks_cons (c := ':') rfl, readValue_append hb, h fuel rest hf hr, String.ofList_toList, hcs]

theorem readMembers_listed {room : Nat} {write : Json → List Char} {b e g : List Char} (hb : Blank b) (he : Blank e)
    (hg : Blank g) : ∀ {members : List (String × Json)}, members ≠ [] → (∀ m ∈ members, Reads room m.2 (write m.2)) →
      ∀ fuel rest, 2 * (listed b (member g write) members).length < fuel →
        readMembers fuel room (listed b (member g write) members ++ e ++ '}' :: rest) = some (members, rest)
  | [m], _, h, fuel + 1, rest, hf => by
    have hn : NumberEnds (e ++ '}' :: rest) := numberEnds_append he (numberEnds_cons (by decide) rest)
    simp only [listed, member, List.length_append] at hf
    rw [listed, List.append_assoc]
    refine (readMembers_member hg (h m List.mem_cons_self) hn (by omega)).2 rest ?_
    rw [skipBlanks_append he, skipBlanks_cons (c := '}') rfl]
  | m :: w :: members, _, h, fuel + 1, rest, hf => by
    have hn : ∀ cs, NumberEnds (',' :: cs) := numberEnds_cons (by decide)
    simp only [listed, member, List.length_append, List.length_cons] at hf
    have ih := readMembers_listed hb he hg (List.cons_ne_nil w members) (fun u hu => h u (List.mem_cons_of_mem m hu))
      fuel rest (by omega)
    rw [listed]
    simp only [List.append_assoc, List.cons_append]
    rw [(readMembers_member hg (h m List.mem_cons_self) (hn _) (by omega)).1 _ (skipBlanks_cons (c := ',') rfl _),
      readMembers_append hb, ← List.append_assoc, ih]
    rfl

theorem reads_array {room : Nat} {write : Json → List Char} {o b e : List Char} (ho : Blank o) (hb : Blank b)
    (he : Blank e) {items : List Json} (hne : items ≠ []) (h : ∀ v ∈ items, Reads room v (write v)) :
    Reads (room + 1) (.array items) ('[' :: (o ++ listed b write items ++ e ++ [']'])) := by
  refine reads_of_step fun fuel rest hf _ => readValue_of_readItems (r := (items, rest)) ?_
  simp only [List.length_append, List.length_singleton] at hf
  have hi := readItems_listed hb he hne h fuel rest (by omega)
  simpa [readItems_append ho] using hi

theorem reads_object {room : Nat} {write : Json → List Char} {o b e g : List Char} (ho : Blank o) (hb : Blank b)
    (he : Blank e) (hg : Blank g) {members : List (String × Json)} (hne : members ≠ [])
    (h : ∀ m ∈ members, Reads room m.2 (write m.2)) :
    Reads (room + 1) (.object members) ('{' :: (o ++ listed b (member g write) members ++ e ++ ['}'])) := by
  refine reads_of_step fun fuel rest hf _ => readValue_of_readMembers (r := (members, rest)) ?_
  simp only [List.length_append, List.length_singleton] at hf
  have hm := readMembers_listed hb he hg hne h fuel rest (by omega)
  simpa [readMembers_append ho] using hm

theorem reads_array_nil (room : Nat) : Reads (room + 1) (.array []) ['[', ']'] :=
  reads_of_step fun _ _ _ _ => rfl

theorem reads_object_nil (room : Nat) : Reads (room + 1) (.object []) ['{', '}'] :=
  reads_of_step fun _ _ _ _ => rfl

/-! ## Documents -/

/-- Values whose numbers are whole, with lists and objects nested at most so deep. -/
inductive Fits : Nat → Json → Prop
  | null (room : Nat) : Fits room .null
  | bool (room : Nat) (b : Bool) : Fits room (.bool b)
  | int (room : Nat) (i : Int) : Fits room (.int i)
  | string (room : Nat) (s : String) : Fits room (.string s)
  | array {room : Nat} {items : List Json} : (∀ v ∈ items, Fits room v) → Fits (room + 1) (.array items)
  | object {room : Nat} {members : List (String × Json)} :
    (∀ m ∈ members, Fits room m.2) → Fits (room + 1) (.object members)

theorem indentedItems_eq (depth : Nat) : ∀ items : List Json,
    indentedItems depth items = listed (newLine depth) (indented depth) items
  | [] => by rw [indentedItems, listed]
  | [v] => by rw [indentedItems, listed]
  | v :: w :: items => by rw [indentedItems, listed, indentedItems_eq depth (w :: items)]

theorem indentedMembers_eq (depth : Nat) : ∀ members : List (String × Json),
    indentedMembers depth members = listed (newLine depth) (member [' '] (indented depth)) members
  | [] => by rw [indentedMembers, listed]
  | [(k, v)] => by simp [indentedMembers, listed, member]
  | (k, v) :: m :: members => by
    rw [indentedMembers, listed, indentedMembers_eq depth (m :: members)]
    simp [member]

/-- **A value is read back from its lines.** -/
theorem Fits.reads_indented {room : Nat} {v : Json} (h : Fits room v) (depth : Nat) :
    Reads room v (indented depth v) := by
  induction h generalizing depth with
  | null room => exact reads_null room
  | bool room b =>
    cases b with
    | true => exact reads_true room
    | false => exact reads_false room
  | int room i => exact reads_int room i
  | string room s => exact reads_string room s
  | @array room items _ ih =>
    cases items with
    | nil => exact reads_array_nil room
    | cons v rest =>
      rw [indented, indentedItems_eq]
      exact reads_array (blank_newLine _) (blank_newLine _) (blank_newLine _) (List.cons_ne_nil v rest)
        (fun u hu => ih u hu _)
  | @object room members _ ih =>
    cases members with
    | nil => exact reads_object_nil room
    | cons m rest =>
      rw [indented, indentedMembers_eq]
      exact reads_object (blank_newLine _) (blank_newLine _) (blank_newLine _) (by simp [Blank, isBlank])
        (List.cons_ne_nil m rest) (fun u hu => ih u hu _)

theorem compactItems_eq : ∀ items : List Json, compactItems items = listed [] compact items
  | [] => by rw [compactItems, listed]
  | [v] => by rw [compactItems, listed]
  | v :: w :: items => by
    rw [compactItems, listed, compactItems_eq (w :: items)]
    simp

theorem compactMembers_eq : ∀ members : List (String × Json),
    compactMembers members = listed [] (member [] compact) members
  | [] => by rw [compactMembers, listed]
  | [(k, v)] => by simp [compactMembers, listed, member]
  | (k, v) :: m :: members => by
    rw [compactMembers, listed, compactMembers_eq (m :: members)]
    simp [member]

/-- **A value is read back from one line without blanks.** -/
theorem Fits.reads_compact {room : Nat} {v : Json} (h : Fits room v) : Reads room v (compact v) := by
  have hnil : Blank [] := fun c hc => by cases hc
  induction h with
  | null room => exact reads_null room
  | bool room b =>
    cases b with
    | true => exact reads_true room
    | false => exact reads_false room
  | int room i => exact reads_int room i
  | string room s => exact reads_string room s
  | @array room items _ ih =>
    cases items with
    | nil => exact reads_array_nil room
    | cons v rest =>
      rw [compact, compactItems_eq]
      simpa using reads_array hnil hnil hnil (List.cons_ne_nil v rest) ih
  | @object room members _ ih =>
    cases members with
    | nil => exact reads_object_nil room
    | cons m rest =>
      rw [compact, compactMembers_eq]
      simpa using reads_object hnil hnil hnil hnil (List.cons_ne_nil m rest) ih

theorem Fits.mono {m n : Nat} {v : Json} (h : Fits m v) (hmn : m ≤ n) : Fits n v := by
  induction h generalizing n with
  | null => exact .null n
  | bool _ b => exact .bool n b
  | int _ i => exact .int n i
  | string _ s => exact .string n s
  | array _ ih =>
    obtain ⟨n, rfl⟩ : ∃ k, n = k + 1 := ⟨n - 1, by omega⟩
    exact .array fun v hv => ih v hv (by omega)
  | object _ ih =>
    obtain ⟨n, rfl⟩ : ∃ k, n = k + 1 := ⟨n - 1, by omega⟩
    exact .object fun m hm => ih m hm (by omega)

/-- **A value is read back from its document**, as far as lists and objects may nest. -/
theorem read?_document {v : Json} (h : Fits depthLimit v) : read? v.document.toList = some (v, ['\n']) := by
  have hr := h.reads_indented 0
  rw [document, String.toList_ofList, read?]
  refine hr _ _ ?_ (numberEnds_cons (by decide) [])
  rw [List.length_append]
  omega

/-- **A value is read back from a text that holds nothing else.** -/
theorem ofText?_compact {v : Json} (h : Fits depthLimit v) : ofText? (String.ofList v.compact) = some v := by
  have hr : read? v.compact = some (v, []) := by
    have := h.reads_compact (2 * v.compact.length + 2) [] (by omega) (fun c hc => by cases hc)
    rwa [List.append_nil] at this
  rw [ofText?, String.toList_ofList, hr]
  rfl

/-- A list of values is given over no list item by item. -/
theorem itemsOver_map {α : Type} {fresh : α} {give : α → Json → Option α} {item : α → Json} :
    ∀ {l : List α}, (∀ a ∈ l, give fresh (item a) = some a) → itemsOver fresh give [] (l.map item) = some l
  | [], _ => rfl
  | a :: l, h => by
    have ih := itemsOver_map (fun b hb => h b (List.mem_cons_of_mem a hb))
    rw [List.map_cons, itemsOver, List.headD_nil, h a List.mem_cons_self, List.tail_nil, ih]
    rfl

end Json
end LoopNest
