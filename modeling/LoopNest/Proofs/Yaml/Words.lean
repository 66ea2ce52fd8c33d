import Mathlib
import LoopNest.Identifier
import LoopNest.Yaml.Printer
import LoopNest.Proofs.Text.Numerals
import LoopNest.Proofs.Yaml.Parsing
/-!
# Proofs.Yaml.Words — names and numbers in documents

A name is written plain, or between double quotes where it would be read as something else: `y` and `null` are names of
tensors like any others.  Either way it is read as a text (`meaning?_name`).  A number is written plain, and its digits
mean that number (`ofPlain_signedDigits`): no number looks like a date.
-/
namespace LoopNest
namespace Yaml

open Layout (Spelled Wordy FieldName keyLimit)

/-! ## Words -/

/-- The letters of names. -/
theorem isNameChar_of_isTail {c : Char} (h : Identifier.isTail c = true) : isNameChar c = true := by
  simp only [Identifier.isTail, Identifier.isLetter, Text.isDecimalDigit, Bool.or_eq_true, decide_eq_true_eq,
    beq_iff_eq] at h
  simp only [isNameChar, decide_eq_true_eq]
  tauto

theorem isNameChar_of_isWord {w : List Char} (h : Identifier.isWord w = true) : w.all isNameChar = true := by
  cases w with
  | nil => cases h
  | cons c w =>
    simp only [Identifier.isWord, Bool.and_eq_true, List.all_eq_true] at h
    rw [List.all_cons, Bool.and_eq_true, List.all_eq_true]
    exact ⟨isNameChar_of_isTail (by simp [Identifier.isTail, h.1]), fun c hc => isNameChar_of_isTail (h.2 c hc)⟩

theorem exists_letter_of_isWord {w : List Char} (h : Identifier.isWord w = true) :
    ∃ c cs, w = c :: cs ∧ Identifier.isLetter c = true := by
  cases w with
  | nil => cases h
  | cons c w =>
    rw [Identifier.isWord, Bool.and_eq_true] at h
    exact ⟨c, w, rfl, h.1⟩

theorem ne_of_isLetter {c x : Char} (h : Identifier.isLetter c = true) (hx : Identifier.isLetter x = false) :
    c ≠ x := by
  rintro rfl
  rw [h] at hx
  cases hx

theorem wordy_of_isWord {w : List Char} (h : Identifier.isWord w = true) : Wordy w := by
  obtain ⟨c, cs, rfl, hc⟩ := exists_letter_of_isWord h
  refine ⟨by simp, ?_, isNameChar_of_isWord h⟩
  simp [ne_of_isLetter hc (x := '-') (by decide)]

theorem fieldName_of_isWord {w : List Char} (h : Identifier.isWord w = true) (hl : w.length ≤ keyLimit) :
    FieldName w := by
  obtain ⟨c, cs, rfl, hc⟩ := exists_letter_of_isWord h
  refine ⟨wordy_of_isWord h, ?_, hl⟩
  simp [ne_of_isLetter hc (x := '-') (by decide)]

theorem isShown_of_isNameChar {c : Char} (h : isNameChar c = true) : isShown c = true := by
  have hn := toNat_of_isNameChar h
  simp [isShown]
  omega

theorem doubleQuotedChar_of_isNameChar {c : Char} (h : isNameChar c = true) : doubleQuotedChar c = [c] := by
  have hn : ∀ x, isNameChar x = false → c ≠ x := fun x => ne_of_isNameChar h
  have hl : letterOf? c = none := by
    simp [letterOf?, hn '\x00' (by decide), hn '\x07' (by decide), hn '\x08' (by decide), hn '\t' (by decide),
      hn '\n' (by decide), hn '\x0b' (by decide), hn '\x0c' (by decide), hn '\r' (by decide), hn '\x1b' (by decide),
      hn '"' (by decide), hn '\\' (by decide), hn '\u0085' (by decide), hn '\u2028' (by decide),
      hn '\u2029' (by decide)]
  rw [doubleQuotedChar, hl]
  simp [isShown_of_isNameChar h]

theorem doubleQuoted_word {w : List Char} (h : w.all isNameChar = true) : doubleQuoted w = '"' :: (w ++ ['"']) := by
  have hw : w.flatMap doubleQuotedChar = w := by
    induction w with
    | nil => rfl
    | cons c w ih =>
      rw [List.all_cons, Bool.and_eq_true] at h
      rw [List.flatMap_cons, doubleQuotedChar_of_isNameChar h.1, ih h.2]
      rfl
  rw [doubleQuoted, hw]
  rfl

theorem staysPlain_word {w : List Char} (h : w.all isNameChar = true) (c : Char) : staysPlain c w = true := by
  induction w generalizing c with
  | nil => rfl
  | cons d w ih =>
    rw [List.all_cons, Bool.and_eq_true] at h
    have hc : d ≠ ':' := ne_of_isNameChar h.1 (by decide)
    have hh : d ≠ '#' := ne_of_isNameChar h.1 (by decide)
    simp [staysPlain, hc, hh, ih h.2]

/-- A name may always stand plain, if that is how it is read. -/
theorem allowsPlain_word {w : List Char} (h : Identifier.isWord w = true) : allowsPlain w = true := by
  have hw := isNameChar_of_isWord h
  have hshown : w.all (fun c => isShown c && !isBreak c) = true := by
    rw [List.all_eq_true]
    intro c hc
    have hn := List.all_eq_true.1 hw c hc
    simp [isShown_of_isNameChar hn, (visible_of_isNameChar hn).2.1]
  have hlast : w.getLast? ≠ some ' ' := by
    intro hl
    exact ne_of_isNameChar (List.all_eq_true.1 hw _ (List.mem_of_getLast? hl)) (by decide) rfl
  obtain ⟨c, cs, rfl, hc⟩ := exists_letter_of_isWord h
  have hn : ∀ x, Identifier.isLetter x = false → c ≠ x := fun x => ne_of_isLetter hc
  have hmark : looksLikeMark (c :: cs) = false := by
    simp [looksLikeMark, hn '-' (by decide), hn '.' (by decide)]
  have hopens : opensPlain (c :: cs) = true := by
    have hm : c ∉ Layout.marks := Layout.not_mem_marks (List.all_eq_true.1 hw c (List.mem_cons_self ..))
    simp only [Layout.marks, List.mem_cons, not_or] at hm
    simp [opensPlain, hn '-' (by decide), hm]
  rw [List.all_cons, Bool.and_eq_true] at hw
  have hstays : staysPlain c cs = true := staysPlain_word hw.2 c
  simp [allowsPlain, hmark, hopens, hstays, hshown, hlast, hn ' ' (by decide)]

/-- How a name is written. -/
def nameStyle (s : String) : Style := if readsAsText s.toList then .plain else .double

theorem spelled_writeText {s : String} (h : Identifier.isWord s.toList = true) (indent : Nat) :
    Spelled (writeText indent s) (nameStyle s) s.toList := by
  have hw := isNameChar_of_isWord h
  have hb : s.toList.contains '\n' = false := by
    rw [Bool.eq_false_iff, ne_eq, List.contains_iff_mem]
    intro hm
    exact ne_of_isNameChar (List.all_eq_true.1 hw _ hm) (by decide) rfl
  unfold writeText nameStyle
  by_cases hr : readsAsText s.toList = true
  · simp only [hb, hr, allowsPlain_word h, if_true, Bool.false_eq_true, if_false]
    exact .inl ⟨rfl, rfl, wordy_of_isWord h⟩
  · simp only [hb, hr, Bool.false_eq_true, if_false]
    exact .inr ⟨doubleQuoted_word hw, rfl, hw⟩

/-- **A name is read as a text**, however it is written. -/
theorem meaning?_name {s : String} (h : Identifier.isWord s.toList = true) :
    meaning? (nameStyle s) [] s.toList = some .text := by
  have hm : s.toList ≠ ['<', '<'] := by
    obtain ⟨c, cs, hs, hc⟩ := exists_letter_of_isWord h
    simp [hs, ne_of_isLetter hc (x := '<') (by decide)]
  have ht : String.ofList (Meaning.shortTag []) = "" := by decide
  unfold meaning? nameStyle
  by_cases hr : readsAsText s.toList = true
  · have hp : Meaning.ofPlain s.toList = .text := by
      simp only [readsAsText, Bool.and_eq_true, beq_iff_eq] at hr
      exact hr.1.1
    simp [ht, hr, hm, hp]
  · simp [ht, hr]

/-! ## Numbers -/

theorem signedDigits_tail {i : Int} {c : Char} {cs : List Char} (h : Text.signedDigits i = c :: cs) :
    ∀ d ∈ cs, Text.isDecimalDigit d = true := by
  intro d hd
  cases i with
  | ofNat n =>
    have h : Text.decimalDigits n = c :: cs := h
    exact Text.isDecimalDigit_of_mem_decimalDigits n d (by simp [h, hd])
  | negSucc n =>
    have h : '-' :: Text.decimalDigits (n + 1) = c :: cs := h
    exact Text.isDecimalDigit_of_mem_decimalDigits (n + 1) d (by rw [(List.cons.inj h).2]; exact hd)

theorem isNameChar_of_isDecimalDigit {c : Char} (h : Text.isDecimalDigit c = true) : isNameChar c = true := by
  have hc : '0' ≤ c ∧ c ≤ '9' := of_decide_eq_true h
  simp [isNameChar, hc]

theorem wordy_signedDigits (i : Int) : Wordy (Text.signedDigits i) := by
  refine ⟨?_, ?_, ?_⟩
  · obtain ⟨c, cs, h, -⟩ := Text.signedDigits_cases i
    simp [h]
  · cases i with
    | ofNat n =>
      intro h
      have h : Text.decimalDigits n = ['-'] := h
      exact absurd (Text.isDecimalDigit_of_mem_decimalDigits n '-' (by simp [h])) (by decide)
    | negSucc n =>
      intro h
      have hd : Text.decimalDigits (n + 1) = [] := (List.cons.inj h).2
      rcases Text.decimalDigits_cases (n + 1) with ⟨h0, -⟩ | ⟨c, cs, hc, -⟩
      · omega
      · simp [hc] at hd
  · rw [List.all_eq_true]
    intro c hc
    rcases Text.mem_signedDigits hc with rfl | hd
    · decide
    · exact isNameChar_of_isDecimalDigit hd

/-- A date has a dash after its year, and a number has none but at its front. -/
theorem isMoment_signedDigits (i : Int) : Meaning.isMoment (Text.signedDigits i) = false := by
  obtain ⟨c, cs, h, -⟩ := Text.signedDigits_cases i
  have hmark : Text.readMark '-' ((Text.signedDigits i).drop 4) = none := by
    rw [h, List.drop_succ_cons]
    cases hd : cs.drop 3 with
    | nil => rfl
    | cons d ds =>
      have hdigit := signedDigits_tail h d (List.mem_of_mem_drop (hd ▸ List.mem_cons_self ..))
      simp [Text.readMark, Text.ne_of_isDecimalDigit hdigit (x := '-') (by decide)]
  have hyear : ∀ r ∈ Text.readField 4 0 9999 (Text.signedDigits i), r.2 = (Text.signedDigits i).drop 4 := by
    intro r hr
    simp only [Text.readField, Option.mem_def, Option.ite_none_right_eq_some, Option.some.injEq] at hr
    rw [← hr.2]
  have hdate : Meaning.readDate (Text.signedDigits i) = none := by
    unfold Meaning.readDate
    cases hf : Text.readField 4 0 9999 (Text.signedDigits i) with
    | none => rfl
    | some r => simp [hyear r hf, hmark]
  simp [Meaning.isMoment, hdate]

theorem words_lookup_signedDigits (i : Int) : Meaning.words.lookup (String.ofList (Text.signedDigits i)) = none := by
  rw [List.lookup_eq_none_iff]
  intro p hp
  have hw := List.all_eq_true.1 (by decide : Meaning.words.all (fun p => p.1.toList.isEmpty ||
    p.1.toList.any (fun c => !(c == '-' || Text.isDecimalDigit c))) = true) p hp
  rw [bne_iff_ne]
  intro h
  have htext : p.1.toList = Text.signedDigits i := by rw [← h, String.toList_ofList]
  rw [htext, Bool.or_eq_true, List.isEmpty_iff, List.any_eq_true] at hw
  rcases hw with hw | ⟨c, hc, hw⟩
  · exact (wordy_signedDigits i).1 hw
  · rcases Text.mem_signedDigits hc with rfl | hd
    · cases hw
    · simp [hd] at hw

/-- **The digits of a word mean that word.** -/
theorem ofPlain_signedDigits {i : Int} (h : Text.Word i) : Meaning.ofPlain (Text.signedDigits i) = .integer i := by
  have hstart : Meaning.startsNumeral (Text.signedDigits i) = true := by
    obtain ⟨c, cs, hcs, hc⟩ := Text.signedDigits_cases i
    rw [hcs]
    rcases hc with rfl | hc
    · rfl
    · simp [Meaning.startsNumeral, hc]
  have hplain : (Text.signedDigits i).filter (· != '_') = Text.signedDigits i := by
    rw [List.filter_eq_self]
    intro c hc
    rcases Text.mem_signedDigits hc with rfl | hd
    · rfl
    · simpa using Text.ne_of_isDecimalDigit hd (by decide)
  unfold Meaning.ofPlain
  rw [words_lookup_signedDigits]
  simp [hstart, isMoment_signedDigits, Meaning.ofNumeral, hplain, Meaning.readInteger, Text.readSigned_signedDigits h]

end Yaml
end LoopNest
