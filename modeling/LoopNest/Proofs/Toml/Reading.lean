import Mathlib
import LoopNest.Toml.Reader
import LoopNest.Proofs.Text.Numerals
/-!
# Proofs.Toml.Reading — lines that are written can be read

A text between double quotes and a whole number are read back from how they are written (`readBasic_escaped`,
`readNumber_signedDigits`).  `Yields t ss` says that the lines `t` are read as the statements `ss`, whatever lines come
after them; it holds of a line with a key and of a header (`yields_line`, `yields_header`), and of lines one after the
other when it holds of each (`Yields.append`).
-/
namespace LoopNest
namespace Toml

open Text (signedDigits decimalDigits isDecimalDigit hexDigits)

/-! ## Texts -/

theorem readBasic_escape {rest : List Char} {c : Char} {n : Nat} (h : escape? rest = some (c, n)) :
    readBasic ('\\' :: rest) = prepend [c] (readBasic (rest.drop n)) := by
  rw [readBasic]
  simp [isBreak, h]

theorem readBasic_letter {e c : Char} (rest : List Char) (h : escape? (e :: rest) = some (c, 1)) :
    readBasic ('\\' :: e :: rest) = prepend [c] (readBasic rest) :=
  readBasic_escape h

theorem readBasic_plain {c : Char} (hq : c ≠ '"') (hs : c ≠ '\\') (hn : c ≠ '\n') (hr : c ≠ '\r') (rest : List Char) :
    readBasic (c :: rest) = prepend [c] (readBasic rest) := by
  rw [readBasic]
  simp [isBreak, hq, hs, hn, hr]

theorem escape?_unit {c : Char} (h : c.toNat < 0xD800) (rest : List Char) :
    escape? ('u' :: hexDigits 4 c.toNat ++ rest) = some (c, 5) := by
  have hn : Text.hexNumber? (hexDigits 4 c.toNat) = some c.toNat := Text.hexNumber?_hexDigits 4 _ (by omega)
  have hc : Text.charOfCode? c.toNat = some c := by rw [Text.charOfCode?, if_pos (.inl h), Char.ofNat_toNat]
  simp only [hexDigits, List.nil_append, List.cons_append] at hn ⊢
  simp [escape?, hn, hc]

/-- **A character is read back from how it is written between quotes.** -/
theorem readBasic_escapedChar (c : Char) (rest : List Char) :
    readBasic (escapedChar c ++ rest) = prepend [c] (readBasic rest) := by
  unfold escapedChar
  split_ifs with hq hs hb ht hn hf hr hu
  · subst hq
    exact readBasic_letter rest rfl
  · subst hs
    exact readBasic_letter rest rfl
  · subst hb
    exact readBasic_letter rest rfl
  · subst ht
    exact readBasic_letter rest rfl
  · subst hn
    exact readBasic_letter rest rfl
  · subst hf
    exact readBasic_letter rest rfl
  · subst hr
    exact readBasic_letter rest rfl
  · exact readBasic_escape (escape?_unit (by omega) rest)
  · exact readBasic_plain hq hs hn hr rest

theorem readBasic_escaped : ∀ (s rest : List Char), readBasic (s.flatMap escapedChar ++ '"' :: rest) = some (s, rest)
  | [], rest => by simp [readBasic]
  | c :: s, rest => by
    rw [List.flatMap_cons, List.append_assoc, readBasic_escapedChar, readBasic_escaped s rest]
    rfl

theorem head?_escapedChar (c : Char) : ∃ x xs, escapedChar c = x :: xs ∧ x ≠ '"' := by
  unfold escapedChar
  split_ifs with hq
  all_goals exact ⟨_, _, rfl, by first | decide | exact hq⟩

/-- A text is read back from between its quotes; a quote right after it would have opened a long text. -/
theorem readString_quotedText (s : String) {rest : List Char} (h : rest.head? ≠ some '"') :
    readString (quotedText s ++ rest) = some (s.toList, rest) := by
  have hr := readBasic_escaped s.toList rest
  have ht : quotedText s ++ rest = '"' :: (s.toList.flatMap escapedChar ++ '"' :: rest) := by simp [quotedText]
  rw [ht, readString, hr]
  intro body hb
  cases hs : s.toList with
  | nil =>
    rw [hs, List.flatMap_nil, List.nil_append] at hb
    rw [(List.cons.inj hb).2] at h
    exact h rfl
  | cons c cs =>
    obtain ⟨x, xs, hx, hne⟩ := head?_escapedChar c
    rw [hs, List.flatMap_cons, hx] at hb
    exact hne (List.cons.inj hb).1

/-! ## Numbers -/

theorem underscoresOk_true : ∀ {ds : List Char}, (∀ c ∈ ds, isDecimalDigit c = true) → underscoresOk true ds = true
  | [], _ => rfl
  | c :: ds, h => by
    simp [underscoresOk, Text.isHexDigit_of_isDecimalDigit (h c List.mem_cons_self),
      underscoresOk_true fun d hd => h d (List.mem_cons_of_mem c hd)]

theorem underscoresOk_signedDigits (i : Int) : underscoresOk false (signedDigits i) = true := by
  have step : ∀ n ok, underscoresOk ok (decimalDigits n) = true := by
    intro n ok
    have hd := Text.isDecimalDigit_of_mem_decimalDigits n
    cases hn : decimalDigits n with
    | nil => exact absurd hn (Text.decimalDigits_ne_nil n)
    | cons c cs =>
      rw [hn] at hd
      have hc := hd c List.mem_cons_self
      simp [underscoresOk, Text.isHexDigit_of_isDecimalDigit hc, Text.ne_of_isDecimalDigit hc (x := '_') (by decide),
        underscoresOk_true fun d hd' => hd d (List.mem_cons_of_mem c hd')]
  cases i with
  | ofNat n => exact step n false
  | negSucc n => simp [signedDigits, underscoresOk, step]

theorem hasLeadingZero_signedDigits (i : Int) : hasLeadingZero (signedDigits i) = false := by
  have step : ∀ n, hasLeadingZero (decimalDigits n) = false ∧ hasLeadingZero ('-' :: decimalDigits n) = false := by
    intro n
    rcases Text.decimalDigits_cases n with ⟨-, hz⟩ | ⟨c, cs, hn, h0, hc⟩
    · rw [hz]
      exact ⟨rfl, rfl⟩
    · have hp : c ≠ '+' := Text.ne_of_isDecimalDigit hc (by decide)
      have hm : c ≠ '-' := Text.ne_of_isDecimalDigit hc (by decide)
      rw [hn]
      unfold hasLeadingZero
      constructor <;> split <;> simp_all
  cases i with
  | ofNat n => exact (step n).1
  | negSucc n => exact (step (n + 1)).2

theorem integerOf?_signedDigits {i : Int} (h : Text.Word i) : integerOf? (signedDigits i) = some i := by
  have hw : withoutUnderscores (signedDigits i) = signedDigits i := by
    refine List.filter_eq_self.2 fun c hc => ?_
    rcases Text.mem_signedDigits hc with rfl | hd
    · rfl
    · simpa using Text.ne_of_isDecimalDigit hd (x := '_') (by decide)
  rw [integerOf?, underscoresOk_signedDigits, hasLeadingZero_signedDigits, hw, Text.readSigned_signedDigits h]
  rfl

theorem readDecimalNumber_signedDigits {i : Int} (h : Text.Word i) (rest : List Char) :
    readDecimalNumber (signedDigits i ++ '\n' :: rest) = some (.integer i, '\n' :: rest) := by
  have ht : ∀ c ∈ signedDigits i, isNumberChar c = true := by
    intro c hc
    rcases Text.mem_signedDigits hc with rfl | hd
    · rfl
    · simp [isNumberChar, hd]
  have hp : (signedDigits i).any (fun c => c == '.' || c == 'e' || c == 'E') = false := by
    rw [List.any_eq_false]
    intro c hc
    rcases Text.mem_signedDigits hc with rfl | hd
    · decide
    · simp [Text.ne_of_isDecimalDigit hd (x := '.') (by decide), Text.ne_of_isDecimalDigit hd (x := 'e') (by decide),
        Text.ne_of_isDecimalDigit hd (x := 'E') (by decide)]
  have hn : isNumberChar '\n' = false := by decide
  simp [readDecimalNumber, List.takeWhile_append_of_pos ht, List.dropWhile_append_of_pos ht, hn, hp,
    integerOf?_signedDigits h]

/-- Digits up to the end of a line are a decimal number: no mark of another base is among them, nor of a moment. -/
theorem readNumber_digits {ds : List Char} (hne : ds ≠ []) (hd : ∀ c ∈ ds, isDecimalDigit c = true) (rest : List Char) :
    readNumber (ds ++ '\n' :: rest) = readDecimalNumber (ds ++ '\n' :: rest) := by
  have hm : startsMoment (ds ++ '\n' :: rest) = false := by
    simp [startsMoment, List.dropWhile_append_of_pos hd, show isDecimalDigit '\n' = false from rfl]
  obtain ⟨c, x, cs, hcs, hc, hx⟩ : ∃ c x cs, ds ++ '\n' :: rest = c :: x :: cs ∧ isDecimalDigit c = true ∧
      (x = '\n' ∨ isDecimalDigit x = true) := by
    match ds with
    | [] => exact absurd rfl hne
    | [c] => exact ⟨c, '\n', rest, rfl, hd c (by simp), .inl rfl⟩
    | c :: d :: ds => exact ⟨c, d, _, rfl, hd c (by simp), .inr (hd d (by simp))⟩
  have hne' : ∀ y, isDecimalDigit y = false → y ≠ '\n' → x ≠ y := by
    rintro y hy hn rfl
    rcases hx with rfl | hx
    · exact hn rfl
    · rw [hx] at hy
      cases hy
  rw [hcs] at hm ⊢
  unfold readNumber
  split
  · rename_i heq
    exact absurd (List.cons.inj (List.cons.inj heq).2).1 (hne' _ (by decide) (by decide))
  · rename_i heq
    exact absurd (List.cons.inj (List.cons.inj heq).2).1 (hne' _ (by decide) (by decide))
  · rename_i heq
    exact absurd (List.cons.inj (List.cons.inj heq).2).1 (hne' _ (by decide) (by decide))
  · rename_i heq
    cases heq
    rw [if_neg, hm]
    · rfl
    · rintro (rfl | rfl) <;> cases hc
  · rename_i h
    exact absurd rfl (h c x cs)

/-- **A whole number is read back from its digits**, up to the end of its line. -/
theorem readNumber_signedDigits {i : Int} (h : Text.Word i) (rest : List Char) :
    readNumber (signedDigits i ++ '\n' :: rest) = some (.integer i, '\n' :: rest) := by
  rw [← readDecimalNumber_signedDigits h rest]
  cases i with
  | ofNat n => exact readNumber_digits (Text.decimalDigits_ne_nil n) (Text.isDecimalDigit_of_mem_decimalDigits n) rest
  | negSucc n =>
    have hd := Text.isDecimalDigit_of_mem_decimalDigits (n + 1)
    rw [signedDigits]
    cases hn : decimalDigits (n + 1) with
    | nil => exact absurd hn (Text.decimalDigits_ne_nil _)
    | cons c cs => simp [readNumber, hd c (by simp [hn])]

/-! ## Filler -/

/-- Nothing but blanks and line breaks. -/
def Filler (f : List Char) : Prop := ∀ c ∈ f, (isBlank c || isBreak c) = true

theorem skipFiller_append {f : List Char} (h : Filler f) (cs : List Char) : skipFiller (f ++ cs) = skipFiller cs := by
  induction f with
  | nil => rfl
  | cons c f ih =>
    rw [List.cons_append, skipFiller, if_pos (h c List.mem_cons_self), ih fun d hd => h d (List.mem_cons_of_mem c hd)]

theorem skipFiller_cons {c : Char} (hf : (isBlank c || isBreak c) = false) (hc : c ≠ '#') (cs : List Char) :
    skipFiller (c :: cs) = c :: cs := by
  rw [skipFiller, if_neg (by simp [hf]), if_neg hc]

theorem filler_break_blanks (n : Nat) : Filler ('\n' :: List.replicate n ' ') := by
  intro c hc
  rcases List.mem_cons.1 hc with rfl | hc
  · rfl
  · rw [List.eq_of_mem_replicate hc]
    rfl

theorem filler_blanks (n : Nat) : Filler (List.replicate n ' ') :=
  fun c hc => filler_break_blanks n c (List.mem_cons_of_mem _ hc)

theorem readItems_append {f : List Char} (h : Filler f) (fuel : Nat) (cs : List Char) :
    readItems fuel (f ++ cs) = readItems fuel cs := by
  cases fuel with
  | zero => simp [readItems]
  | succ fuel => rw [readItems, readItems, skipFiller_append h]

theorem readAll_append {f : List Char} (h : Filler f) (fuel : Nat) (cs : List Char) :
    readAll fuel (f ++ cs) = readAll fuel cs := by
  cases fuel with
  | zero => rfl
  | succ fuel => rw [readAll, readAll, skipFiller_append h]

/-! ## Values -/

theorem readExpr_blank (fuel : Nat) (cs : List Char) : readExpr fuel (' ' :: cs) = readExpr fuel cs := by
  cases fuel with
  | zero => simp [readExpr]
  | succ fuel => rw [readExpr, readExpr, skipBlanks, skipBlanks, List.dropWhile_cons_of_pos rfl]

theorem readExpr_quotedText (fuel : Nat) (s : String) {rest : List Char} (h : rest.head? ≠ some '"') :
    readExpr (fuel + 1) (quotedText s ++ rest) = some (.text s, rest) := by
  have hs := readString_quotedText s h
  obtain ⟨t, ht⟩ : ∃ t, quotedText s ++ rest = '"' :: t := ⟨_, rfl⟩
  rw [ht] at hs ⊢
  rw [readExpr, skipBlanks, List.dropWhile_cons_of_neg (by decide)]
  simp [hs]

theorem readWord_of_digit {c : Char} (h : isDecimalDigit c = true) (cs : List Char) : readWord (c :: cs) = none := by
  unfold readWord
  split
  all_goals first
    | rfl
    | exact absurd (List.cons.inj ‹_›).1 (Text.ne_of_isDecimalDigit h (by decide))

theorem readWord_minus {c : Char} (h : isDecimalDigit c = true) (cs : List Char) :
    readWord ('-' :: c :: cs) = none := by
  unfold readWord
  split
  all_goals first
    | rfl
    | exact absurd (List.cons.inj ‹_›).1 (by decide)
    | exact absurd (List.cons.inj (List.cons.inj ‹_›).2).1 (Text.ne_of_isDecimalDigit h (by decide))

theorem readWord_signedDigits (i : Int) (rest : List Char) : readWord (signedDigits i ++ rest) = none := by
  have step : ∀ n, ∃ c cs, decimalDigits n ++ rest = c :: cs ∧ isDecimalDigit c = true := by
    intro n
    rcases Text.decimalDigits_cases n with ⟨-, hz⟩ | ⟨c, cs, hn, -, hc⟩
    · exact ⟨'0', rest, by rw [hz]; rfl, rfl⟩
    · exact ⟨c, cs ++ rest, by rw [hn]; rfl, hc⟩
  cases i with
  | ofNat n =>
    obtain ⟨c, cs, hn, hc⟩ := step n
    rw [signedDigits, hn, readWord_of_digit hc]
  | negSucc n =>
    obtain ⟨c, cs, hn, hc⟩ := step (n + 1)
    rw [signedDigits, List.cons_append, hn, readWord_minus hc]

theorem readExpr_signedDigits (fuel : Nat) {i : Int} (h : Text.Word i) (rest : List Char) :
    readExpr (fuel + 1) (signedDigits i ++ '\n' :: rest) = some (.integer i, '\n' :: rest) := by
  have hn := readNumber_signedDigits h rest
  have hw := readWord_signedDigits i ('\n' :: rest)
  obtain ⟨c, cs, hi, hc⟩ := Text.signedDigits_cases i
  rw [hi, List.cons_append] at hn hw ⊢
  have hne : ∀ x, x ≠ '-' → isDecimalDigit x = false → c ≠ x := by
    rcases hc with rfl | hc
    · exact fun x hx _ => hx.symm
    · exact fun x _ hx => Text.ne_of_isDecimalDigit hc hx
  have hb : ¬ isBlank c = true := by
    simp [isBlank, hne ' ' (by decide) (by decide), hne '\t' (by decide) (by decide)]
  have hs : startsNumber c = true := by rcases hc with rfl | hc <;> simp [startsNumber, *]
  rw [readExpr, skipBlanks, List.dropWhile_cons_of_neg hb]
  simp [hne '"' (by decide) (by decide), hne '\'' (by decide) (by decide), hne '[' (by decide) (by decide),
    hne '{' (by decide) (by decide), hw, hs, hn]

/-- After a text comes a comma and another one, or the end. -/
theorem readItems_text (fuel : Nat) (s : String) {rest : List Char} (h : rest.head? ≠ some '"') :
    (∀ cs, skipFiller rest = ',' :: cs → readItems (fuel + 2) (quotedText s ++ rest) =
      (readItems (fuel + 1) cs).map (fun r => (.text s :: r.1, r.2))) ∧
    ∀ cs, skipFiller rest = ']' :: cs → readItems (fuel + 2) (quotedText s ++ rest) = some ([.text s], cs) := by
  have hx := readExpr_quotedText fuel s h
  obtain ⟨t, ht⟩ : ∃ t, quotedText s ++ rest = '"' :: t := ⟨_, rfl⟩
  rw [ht] at hx ⊢
  refine ⟨fun cs hcs => ?_, fun cs hcs => ?_⟩
  all_goals
    rw [readItems, skipFiller_cons (by decide) (by decide)]
    split
    · rename_i heq
      exact absurd (List.cons.inj heq).1 (by decide)
    · simp only [hx, hcs]

/-- A list of texts is read back from between its brackets. -/
theorem readItems_texts : ∀ (l : List String) (fuel : Nat) (rest : List Char), l.length < fuel →
    readItems fuel (List.intercalate [',', ' '] (l.map quotedText) ++ ']' :: rest) = some (l.map .text, rest)
  | [], fuel + 1, rest, _ => by
    rw [List.map_nil, List.intercalate_nil, List.nil_append, readItems, skipFiller_cons (by decide) (by decide)]
    rfl
  | [s], fuel + 2, rest, _ => by
    rw [List.map_singleton, List.intercalate_singleton]
    exact (readItems_text fuel s (by simp)).2 rest (skipFiller_cons (by decide) (by decide) rest)
  | s :: t :: l, fuel + 2, rest, h => by
    have hb : Filler [' '] := filler_blanks 1
    have ih := readItems_texts (t :: l) (fuel + 1) rest (by simp only [List.length_cons] at h ⊢; omega)
    rw [List.map_cons] at ih
    rw [List.map_cons, List.map_cons, List.intercalate_cons_cons, List.append_assoc, List.append_assoc,
      List.cons_append, (readItems_text fuel s (by simp)).1 _ (skipFiller_cons (by decide) (by decide) _),
      readItems_append hb, ih]
    rfl

theorem readExpr_texts {l : List String} {fuel : Nat} (h : l.length < fuel) (rest : List Char) :
    readExpr (fuel + 1) ('[' :: List.intercalate [',', ' '] (l.map quotedText) ++ [']'] ++ rest) =
      some (.array (l.map .text), rest) := by
  rw [List.append_assoc, List.cons_append, readExpr, skipBlanks, List.dropWhile_cons_of_neg (by decide)]
  simp [readItems_texts l fuel rest h]

/-! ## Paths -/

/-- A key that is written without quotes. -/
def Bare (k : String) : Prop := k.toList ≠ [] ∧ k.toList.all isBare = true

instance : DecidablePred Bare := fun k => inferInstanceAs (Decidable (k.toList ≠ [] ∧ k.toList.all isBare = true))

theorem Bare.isBare_of_mem {k : String} (h : Bare k) {c : Char} (hc : c ∈ k.toList) : isBare c = true :=
  List.all_eq_true.1 h.2 c hc

theorem ne_of_isBare {c x : Char} (h : isBare c = true) (hx : isBare x = false) : c ≠ x := by
  rintro rfl
  rw [h] at hx
  cases hx

theorem not_filler_of_isBare {c : Char} (h : isBare c = true) : (isBlank c || isBreak c) = false := by
  rw [Bool.eq_false_iff]
  intro hc
  have hc' : c = ' ' ∨ c = '\t' ∨ c = '\n' ∨ c = '\r' := by simpa [isBlank, isBreak, or_assoc] using hc
  rcases hc' with rfl | rfl | rfl | rfl <;> cases h

theorem Bare.exists_head {k : String} (h : Bare k) : ∃ c cs, k.toList = c :: cs ∧ isBare c = true := by
  cases hs : k.toList with
  | nil => exact absurd hs h.1
  | cons c cs => exact ⟨c, cs, rfl, h.isBare_of_mem (by simp [hs])⟩

theorem readKey_bare {k : String} (h : Bare k) {rest : List Char} (hr : ∀ c ∈ rest.head?, isBare c = false) :
    readKey (k.toList ++ rest) = some (k, rest) := by
  obtain ⟨c, cs, hs, hc⟩ := h.exists_head
  have ht : (k.toList ++ rest).takeWhile isBare = k.toList ∧ (k.toList ++ rest).dropWhile isBare = rest := by
    rw [List.takeWhile_append_of_pos fun _ => h.isBare_of_mem, List.dropWhile_append_of_pos fun _ => h.isBare_of_mem]
    cases rest with
    | nil => simp
    | cons x rest => simp [hr x rfl]
  have hk := String.ofList_toList (s := k)
  rw [hs, List.cons_append] at *
  rw [readKey, ht.1, ht.2]
  · simp [hk]
  · exact fun _ hx => ne_of_isBare hc (by decide) (List.cons.inj hx).1
  · exact fun _ hx => ne_of_isBare hc (by decide) (List.cons.inj hx).1

theorem skipBlanks_bare {k : String} (h : Bare k) (rest : List Char) :
    skipBlanks (k.toList ++ rest) = k.toList ++ rest := by
  obtain ⟨c, cs, hs, hc⟩ := h.exists_head
  have hb := not_filler_of_isBare hc
  rw [Bool.or_eq_false_iff] at hb
  rw [hs, List.cons_append, skipBlanks, List.dropWhile_cons_of_neg (by simp [hb.1])]

/-- Keys with points between them. -/
def dotted (ks : Path) : List Char := List.intercalate ['.'] (ks.map String.toList)

theorem length_le_dotted : ∀ ks : Path, ks.length ≤ (dotted ks).length + 1
  | [] => by simp
  | [k] => by simp
  | k :: l :: ks => by
    have ih := length_le_dotted (l :: ks)
    simp only [dotted, List.map_cons, List.intercalate_cons_cons, List.length_append, List.length_cons] at ih ⊢
    omega

/-- **A path is read back from its keys**, with the blanks after it. -/
theorem readPath_dotted : ∀ {ks : Path}, ks ≠ [] → (∀ k ∈ ks, Bare k) → ∀ (fuel : Nat) (rest : List Char),
    ks.length ≤ fuel → (∀ c ∈ rest.head?, isBare c = false) → (skipBlanks rest).head? ≠ some '.' →
      readPath fuel (dotted ks ++ rest) = some (ks, skipBlanks rest)
  | [k], _, hk, fuel + 1, rest, _, hr, hd => by
    have hb := hk k List.mem_cons_self
    rw [dotted, List.map_singleton, List.intercalate_singleton, readPath, skipBlanks_bare hb, readKey_bare hb hr]
    simp only
    split
    · rename_i heq
      rw [heq] at hd
      exact absurd rfl hd
    · rfl
  | k :: l :: ks, _, hk, fuel + 1, rest, hf, hr, hd => by
    have hb := hk k List.mem_cons_self
    have ih := readPath_dotted (List.cons_ne_nil l ks) (fun k' h => hk k' (List.mem_cons_of_mem k h)) fuel rest
      (Nat.le_of_succ_le_succ hf) hr hd
    have ht : dotted (k :: l :: ks) ++ rest = k.toList ++ '.' :: (dotted (l :: ks) ++ rest) := by
      simp [dotted, List.intercalate_cons_cons]
    have hp : ∀ cs, skipBlanks ('.' :: cs) = '.' :: cs := fun cs => List.dropWhile_cons_of_neg (by decide)
    rw [ht, readPath, skipBlanks_bare hb, readKey_bare hb (by rintro c ⟨⟩; rfl)]
    simp only [hp, ih]
    rfl

/-! ## Characters of a file -/

/-- The characters that may stand in a file wherever they stand. -/
def Clean (c : Char) : Prop := c = '\t' ∨ c = '\n' ∨ 0x20 ≤ c.toNat ∧ c.toNat ≠ 0x7f

instance : DecidablePred Clean := fun c =>
  inferInstanceAs (Decidable (c = '\t' ∨ c = '\n' ∨ 0x20 ≤ c.toNat ∧ c.toNat ≠ 0x7f))

theorem isClean_of_forall {cs : List Char} (h : ∀ c ∈ cs, Clean c) : isClean cs = true := by
  induction cs with
  | nil => rfl
  | cons c cs ih =>
    have hr : c ≠ '\r' := by
      rintro rfl
      exact absurd (h '\r' List.mem_cons_self) (by decide)
    rw [isClean]
    · simpa [ih fun d hd => h d (List.mem_cons_of_mem c hd), Clean, or_assoc] using h c List.mem_cons_self
    · exact fun _ hc _ => hr hc

theorem clean_of_between {a b c : Char} (ha : 0x20 ≤ a.toNat) (hb : b.toNat < 0x7f) (hl : a ≤ c) (hu : c ≤ b) :
    Clean c := by
  have hl' : a.toNat ≤ c.toNat := hl
  have hu' : c.toNat ≤ b.toNat := hu
  exact .inr (.inr (by omega))

theorem clean_of_isDecimalDigit {c : Char} (h : isDecimalDigit c = true) : Clean c :=
  have hc : '0' ≤ c ∧ c ≤ '9' := of_decide_eq_true h
  clean_of_between (by decide) (by decide) hc.1 hc.2

theorem clean_of_isBare {c : Char} (h : isBare c = true) : Clean c := by
  rcases of_decide_eq_true h with h | h | h | rfl | rfl
  · exact clean_of_between (by decide) (by decide) h.1 h.2
  · exact clean_of_between (by decide) (by decide) h.1 h.2
  · exact clean_of_between (by decide) (by decide) h.1 h.2
  · decide
  · decide

theorem clean_blanks (n : Nat) : ∀ c ∈ List.replicate n ' ', Clean c := by
  intro c hc
  rw [List.eq_of_mem_replicate hc]
  decide

theorem clean_dotted : ∀ {ks : Path}, (∀ k ∈ ks, Bare k) → ∀ c ∈ dotted ks, Clean c
  | [], _ => by simp [dotted]
  | [k], h => by simpa [dotted] using fun c hc => clean_of_isBare ((h k List.mem_cons_self).isBare_of_mem hc)
  | k :: l :: ks, h => by
    have ih := clean_dotted fun m hm => h m (List.mem_cons_of_mem k hm)
    have hk : ∀ c ∈ k.toList, Clean c := fun c hc => clean_of_isBare ((h k List.mem_cons_self).isBare_of_mem hc)
    simp only [dotted, List.map_cons, List.intercalate_cons_cons, List.forall_mem_append] at ih ⊢
    exact ⟨⟨hk, by simp [Clean]⟩, ih⟩

theorem clean_hexDigits {x : Char} : ∀ {width n : Nat}, x ∈ hexDigits width n → Clean x
  | width + 1, n, h => by
    have hd : ∀ d < 16, Clean (Text.digitChar d) := by decide
    rw [hexDigits, List.mem_append, List.mem_singleton] at h
    rcases h with h | rfl
    · exact clean_hexDigits h
    · exact hd _ (Nat.mod_lt n (by omega))

theorem clean_escapedChar {c x : Char} (h : x ∈ escapedChar c) : Clean x := by
  have pair : ∀ {a : Char}, Clean a → x ∈ ['\\', a] → Clean x := by
    intro a ha hx
    rcases List.mem_pair.1 hx with rfl | rfl
    · decide
    · exact ha
  unfold escapedChar at h
  split_ifs at h with hq hs hb ht hn hf hr hu
  · exact pair (by decide) h
  · exact pair (by decide) h
  · exact pair (by decide) h
  · exact pair (by decide) h
  · exact pair (by decide) h
  · exact pair (by decide) h
  · exact pair (by decide) h
  · rcases List.mem_cons.1 h with rfl | h
    · decide
    rcases List.mem_cons.1 h with rfl | h
    · decide
    · exact clean_hexDigits h
  · obtain rfl := List.mem_singleton.1 h
    exact .inr (.inr (by omega))

theorem clean_quotedText {s : String} {x : Char} (h : x ∈ quotedText s) : Clean x := by
  have hx : x = '"' ∨ ∃ c ∈ s.toList, x ∈ escapedChar c := by simpa [quotedText, or_comm, or_assoc] using h
  rcases hx with rfl | ⟨c, -, hc⟩
  · decide
  · exact clean_escapedChar hc

theorem clean_signedDigits {i : Int} {x : Char} (h : x ∈ signedDigits i) : Clean x := by
  rcases Text.mem_signedDigits h with rfl | h
  · decide
  · exact clean_of_isDecimalDigit h

/-! ## Lines -/

theorem readAll_statement (fuel : Nat) {c : Char} {cs rest : List Char} {s : Statement}
    (hf : (isBlank c || isBreak c) = false) (hc : c ≠ '#') (hs : readStatement (c :: cs) = some (s, '\n' :: rest)) :
    readAll (fuel + 1) (c :: cs) = (readAll fuel rest).map (s :: ·) := by
  have hb : Filler ['\n'] := by simp [Filler, isBreak]
  rw [readAll, skipFiller_cons hf hc]
  simp only [hs]
  rw [if_pos (by rfl), ← readAll_append hb fuel rest]
  rfl

/-- **Lines that are read as statements**, whatever lines come after them. -/
structure Yields (t : List Char) (ss : List Statement) : Prop where
  /-- There are no more statements than characters. -/
  short : ss.length ≤ t.length
  clean : ∀ c ∈ t, Clean c
  read : ∀ fuel rest, readAll (ss.length + fuel) (t ++ rest) = (readAll fuel rest).map (ss ++ ·)

theorem Yields.nil : Yields [] [] := ⟨Nat.le_refl 0, by simp, fun fuel rest => by simp⟩

theorem Yields.append {t u : List Char} {ss rs : List Statement} (h : Yields t ss) (h' : Yields u rs) :
    Yields (t ++ u) (ss ++ rs) where
  short := by
    have := h.short
    have := h'.short
    simp only [List.length_append]
    omega
  clean c hc := (List.mem_append.1 hc).elim (h.clean c) (h'.clean c)
  read fuel rest := by
    rw [List.length_append, Nat.add_assoc, List.append_assoc, h.read, h'.read, Option.map_map]
    simp [Function.comp_def]

theorem Yields.flatMap {α : Type} {write : α → List Char} {state : α → List Statement} :
    ∀ {l : List α}, (∀ a ∈ l, Yields (write a) (state a)) → Yields (l.flatMap write) (l.flatMap state)
  | [], _ => .nil
  | a :: l, h => by
    rw [List.flatMap_cons, List.flatMap_cons]
    exact (h a List.mem_cons_self).append (Yields.flatMap fun b hb => h b (List.mem_cons_of_mem a hb))

theorem readStatement_assign {k : String} (hk : Bare k) {cs rest : List Char} {e : Expr}
    (h : readExpr (2 * cs.length + 4) cs = some (e, rest)) :
    readStatement (k.toList ++ ' ' :: '=' :: ' ' :: cs) = some (.assign [k] e, rest) := by
  have hp : readPath ((k.toList ++ ' ' :: '=' :: ' ' :: cs).length + 1) (k.toList ++ ' ' :: '=' :: ' ' :: cs) =
      some ([k], '=' :: ' ' :: cs) := by
    have := readPath_dotted (List.cons_ne_nil k []) (by simpa using hk)
      ((k.toList ++ ' ' :: '=' :: ' ' :: cs).length + 1) (' ' :: '=' :: ' ' :: cs) (by simp) (by rintro c ⟨⟩; rfl)
      (by simp [skipBlanks, isBlank])
    simpa [dotted, skipBlanks, isBlank] using this
  obtain ⟨c, ds, hs, hc⟩ := hk.exists_head
  have hb : c ≠ '[' := ne_of_isBare hc (by decide)
  rw [hs, List.cons_append] at hp ⊢
  rw [readStatement]
  · rw [hp]
    simp [readExpr_blank, Nat.mul_add, h]
  · exact fun _ hx => hb (List.cons.inj hx).1
  · exact fun _ hx => hb (List.cons.inj hx).1

theorem readStatement_element {ks : Path} (hne : ks ≠ []) (hk : ∀ k ∈ ks, Bare k) (rest : List Char) :
    readStatement ('[' :: '[' :: (dotted ks ++ ']' :: ']' :: rest)) = some (.element ks, rest) := by
  have hl : ks.length ≤ (dotted ks ++ ']' :: ']' :: rest).length + 1 := by
    have := length_le_dotted ks
    simp only [List.length_append]
    omega
  have hp := readPath_dotted hne hk ((dotted ks ++ ']' :: ']' :: rest).length + 1) (']' :: ']' :: rest) hl
    (by rintro c ⟨⟩; rfl) (by simp [skipBlanks, isBlank])
  rw [readStatement, hp]
  simp [skipBlanks, isBlank]

/-- A line with a key and a value, whatever the value is read as. -/
theorem yields_line {k : String} (hk : Bare k) {value : List Char} {e : Expr} (hc : ∀ c ∈ value, Clean c)
    (hv : ∀ fuel rest, value.length ≤ fuel →
      readExpr (fuel + 1) (value ++ '\n' :: rest) = some (e, '\n' :: rest)) (indent : Nat) :
    Yields (List.replicate indent ' ' ++ k.toList ++ [' ', '=', ' '] ++ value ++ ['\n']) [.assign [k] e] where
  short := by
    simp only [List.length_append, List.length_singleton]
    omega
  clean := by
    have hb : ∀ c ∈ k.toList, Clean c := fun c h => clean_of_isBare (hk.isBare_of_mem h)
    simp only [List.forall_mem_append]
    exact ⟨⟨⟨⟨clean_blanks indent, hb⟩, by simp [Clean]⟩, hc⟩, by simp [Clean]⟩
  read fuel rest := by
    have hs := readStatement_assign hk (hv (2 * (value ++ '\n' :: rest).length + 3) rest
      (by simp only [List.length_append]; omega))
    obtain ⟨c, cs, hc, hb⟩ := hk.exists_head
    rw [hc, List.cons_append] at hs
    have hr := readAll_statement fuel (not_filler_of_isBare hb) (ne_of_isBare hb (by decide)) hs
    simp only [List.append_assoc, readAll_append (filler_blanks indent)]
    simpa [hc, Nat.add_comm] using hr

/-- The header of an element of a list of tables, after an empty line. -/
theorem yields_header (ks : Path) (hne : ks ≠ []) (hk : ∀ k ∈ ks, Bare k) (indent : Nat) :
    Yields ('\n' :: List.replicate indent ' ' ++ '[' :: '[' :: dotted ks ++ [']', ']', '\n']) [.element ks] where
  short := by simp
  clean := by
    simp only [List.cons_append, List.forall_mem_cons, List.forall_mem_append]
    exact ⟨by decide, ⟨clean_blanks indent, by decide, by decide, clean_dotted hk⟩, by decide, by decide, by decide,
      by simp⟩
  read fuel rest := by
    have hr := readAll_statement fuel (by decide) (by decide) (readStatement_element hne hk ('\n' :: rest))
    simp only [List.append_assoc, readAll_append (filler_break_blanks indent)]
    simpa [Nat.add_comm] using hr

/-- **A file whose lines are read as statements is read as these statements.** -/
theorem Yields.readStatements {t : List Char} {ss : List Statement} (h : Yields t ss)
    (hm : t.head? ≠ some '\ufeff') : readStatements (String.ofList t) = some ss := by
  have hs : skipMark t = t := by
    unfold skipMark
    split
    · exact absurd rfl hm
    · rfl
  have hr := h.read (t.length + 1 - ss.length) []
  have hf : ss.length + (t.length + 1 - ss.length) = t.length + 1 := by have := h.short; omega
  obtain ⟨f, hf'⟩ : ∃ f, t.length + 1 - ss.length = f + 1 := ⟨t.length - ss.length, by have := h.short; omega⟩
  have he : readAll (f + 1) [] = some [] := by simp [readAll, skipFiller]
  rw [hf, hf', List.append_nil, he] at hr
  unfold Toml.readStatements
  simp [hs, isClean_of_forall h.clean, hr]

end Toml
end LoopNest
