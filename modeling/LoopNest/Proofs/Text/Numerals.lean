import Mathlib
import LoopNest.Proofs.Text.Digits
/-!
# Proofs.Text.Numerals — numbers that are written can be read

The digits of a number are read from left to right, so what is read of a list of digits and one more follows from what
is read of the list (`readDigits_append`).  Decimal digits do not begin with a zero that is not alone, hence are taken
for decimal again (`readSigned_signedDigits`), and hexadecimal digits of a fixed width give their number back
(`hexNumber?_hexDigits`).
-/
namespace LoopNest
namespace Text

/-! ## Digits -/

theorem digitValue?_digitChar {d : Nat} (h : d < 16) : digitValue? (digitChar d) = some d := by
  revert d
  decide

theorem digitChar_ne_zero {d : Nat} (h : d < 10) (h0 : 0 < d) : digitChar d ≠ '0' := by
  revert d
  decide

/-- A digit is none of the other characters that a numeral can hold. -/
theorem ne_of_isDecimalDigit {c x : Char} (h : isDecimalDigit c = true) (hx : isDecimalDigit x = false) : c ≠ x := by
  rintro rfl
  rw [h] at hx
  cases hx

theorem head?_decimalDigits_ne_zero (n : Nat) (h : 0 < n) : (decimalDigits n).head? ≠ some '0' := by
  rw [decimalDigits]
  split
  · rename_i hn
    simpa using digitChar_ne_zero hn h
  · rw [List.head?_append_of_ne_nil _ (decimalDigits_ne_nil _)]
    exact head?_decimalDigits_ne_zero (n / 10) (by omega)
termination_by n

/-- **The digits of a number, seen from the front**: zero alone, or digits that do not begin with it. -/
theorem decimalDigits_cases (n : Nat) :
    (n = 0 ∧ decimalDigits n = ['0']) ∨ ∃ c cs, decimalDigits n = c :: cs ∧ c ≠ '0' ∧ isDecimalDigit c = true := by
  rcases Nat.eq_zero_or_pos n with rfl | h
  · exact .inl ⟨rfl, by rw [decimalDigits]; rfl⟩
  · right
    have hz := head?_decimalDigits_ne_zero n h
    have hd := isDecimalDigit_of_mem_decimalDigits n
    cases hn : decimalDigits n with
    | nil => exact absurd hn (decimalDigits_ne_nil n)
    | cons c cs =>
      rw [hn] at hz hd
      exact ⟨c, cs, rfl, by simpa using hz, hd c List.mem_cons_self⟩

theorem signedDigits_cases (i : Int) : ∃ c cs, signedDigits i = c :: cs ∧ (c = '-' ∨ isDecimalDigit c = true) := by
  cases i with
  | ofNat n =>
    rcases decimalDigits_cases n with ⟨-, hz⟩ | ⟨c, cs, hn, -, hc⟩
    · exact ⟨'0', [], hz, .inr rfl⟩
    · exact ⟨c, cs, hn, .inr hc⟩
  | negSucc n => exact ⟨'-', _, rfl, .inl rfl⟩

theorem mem_signedDigits {i : Int} {c : Char} (h : c ∈ signedDigits i) : c = '-' ∨ isDecimalDigit c = true := by
  cases i with
  | ofNat n => exact .inr (isDecimalDigit_of_mem_decimalDigits n c h)
  | negSucc n => exact (List.mem_cons.1 h).imp_right (isDecimalDigit_of_mem_decimalDigits (n + 1) c)

theorem isHexDigit_of_isDecimalDigit {c : Char} (h : isDecimalDigit c = true) : isHexDigit c = true := by
  have hc : '0' ≤ c ∧ c ≤ '9' := of_decide_eq_true h
  have hn : c.toNat ≤ 57 := hc.2
  simp [isHexDigit, hexValue?, digitValue?, hc]
  omega

/-! ## Reading decimal digits -/

theorem readDigits_cons {base : Nat} {c : Char} (h : c ≠ '_') (cs : List Char) (n : Nat) :
    readDigits base (c :: cs) n = (digitValue? c).elim (.error .malformed) (fun d =>
      if base ≤ d then .error .malformed
      else if wordBound ≤ n * base + d then .error .outOfRange
      else readDigits base cs (n * base + d)) := by
  rw [readDigits]
  · cases digitValue? c with
    | none => rfl
    | some d => rfl
  · exact h

theorem readDigits_append (base : Nat) : ∀ (xs ys : List Char) (n : Nat),
    readDigits base (xs ++ ys) n = (readDigits base xs n).bind (readDigits base ys)
  | [], _, _ => rfl
  | x :: xs, ys, n => by
    by_cases h : x = '_'
    · subst h
      exact readDigits_append base xs ys n
    · rw [List.cons_append, readDigits_cons h, readDigits_cons h]
      cases digitValue? x with
      | none => rfl
      | some d =>
        rw [Option.elim_some, Option.elim_some]
        split
        · rfl
        · split
          · rfl
          · exact readDigits_append base xs ys _

theorem readDigits_digitChar {d n : Nat} (h : d < 10) (hb : n * 10 + d < wordBound) :
    readDigits 10 [digitChar d] n = .ok (n * 10 + d) := by
  have hne : digitChar d ≠ '_' := ne_of_isDecimalDigit (isDecimalDigit_digitChar h) (by decide)
  rw [readDigits_cons hne, digitValue?_digitChar (by omega)]
  simp [Nat.not_le.2 h, Nat.not_le.2 hb, readDigits]

theorem readDigits_decimalDigits (n : Nat) (h : n < wordBound) : readDigits 10 (decimalDigits n) 0 = .ok n := by
  rw [decimalDigits]
  split
  · rename_i hn
    rw [readDigits_digitChar hn (by simpa using h), Nat.zero_mul, Nat.zero_add]
  · rw [readDigits_append, readDigits_decimalDigits (n / 10) (by omega)]
    change readDigits 10 [digitChar (n % 10)] (n / 10) = _
    rw [readDigits_digitChar (Nat.mod_lt n (by omega)) (by omega), Nat.div_add_mod']
termination_by n

theorem baseOf_cons {c : Char} (h : c ≠ '0') (cs : List Char) : baseOf (c :: cs) = (10, c :: cs) := by
  unfold baseOf
  split <;> rename_i heq
  · exact absurd (List.cons.inj heq).1 h
  · exact absurd (List.cons.inj heq).1 h
  · rfl

theorem contains_underscore_decimalDigits (n : Nat) : (decimalDigits n).contains '_' = false := by
  rw [Bool.eq_false_iff, ne_eq, List.contains_iff_mem]
  intro h
  exact ne_of_isDecimalDigit (isDecimalDigit_of_mem_decimalDigits n '_' h) (by decide) rfl

theorem readUnsigned_decimalDigits {n : Nat} (h : n < wordBound) : readUnsigned (decimalDigits n) = .ok n := by
  have hu := contains_underscore_decimalDigits n
  have hr := readDigits_decimalDigits n h
  rcases decimalDigits_cases n with ⟨rfl, hz⟩ | ⟨c, cs, hn, hc, -⟩
  · rw [hz]
    rfl
  · rw [hn] at hu hr ⊢
    simp only [readUnsigned, List.isEmpty_cons, baseOf_cons hc, hr, hu, Bool.false_and, Bool.false_eq_true, if_false]

/-- The integers that fit a signed word. -/
def Word (i : Int) : Prop := -(signedBound : Int) ≤ i ∧ i < signedBound

instance : DecidablePred Word := fun i => inferInstanceAs (Decidable (-(signedBound : Int) ≤ i ∧ i < signedBound))

/-- **An integer that fits a signed word is read back from its digits.** -/
theorem readSigned_signedDigits {i : Int} (h : Word i) : readSigned (signedDigits i) = .ok i := by
  obtain ⟨hl, hu⟩ := h
  have hb : wordBound = 2 * signedBound := by decide
  cases i with
  | ofNat n =>
    have hn : n < signedBound := by simpa using hu
    have hr := readUnsigned_decimalDigits (n := n) (by omega)
    -- no sign stands before the digits, so the literal is read from its first character on
    have : readSigned (decimalDigits n) = (readUnsigned (decimalDigits n)).bind (signedWithin false) := by
      have hd := isDecimalDigit_of_mem_decimalDigits n
      unfold readSigned
      split
      · exact absurd rfl (ne_of_isDecimalDigit (hd '-' (by simp [*])) (by decide))
      · exact absurd rfl (ne_of_isDecimalDigit (hd '+' (by simp [*])) (by decide))
      · rfl
    rw [signedDigits, this, hr]
    simp [Except.bind, signedWithin, hn]
  | negSucc n =>
    have hn : n + 1 ≤ signedBound := by omega
    rw [signedDigits, readSigned, readUnsigned_decimalDigits (by omega)]
    simp [Except.bind, signedWithin, hn, Int.negSucc_eq]

/-! ## Reading hexadecimal digits -/

theorem hexNumber?_append_digitChar {cs : List Char} {n d : Nat} (h : hexNumber? cs = some n) (hd : d < 16) :
    hexNumber? (cs ++ [digitChar d]) = some (16 * n + d) := by
  have hv : hexValue? (digitChar d) = some d := by simp [hexValue?, digitValue?_digitChar hd, hd]
  rw [hexNumber?] at h
  simp [hexNumber?, List.foldl_append, h, hv]

/-- **Hexadecimal digits give their number back**, as far as their width holds it. -/
theorem hexNumber?_hexDigits : ∀ (width n : Nat), n < 16 ^ width → hexNumber? (hexDigits width n) = some n
  | 0, n, h => by
    obtain rfl : n = 0 := by simpa using h
    rfl
  | width + 1, n, h => by
    have hq : n / 16 < 16 ^ width := Nat.div_lt_of_lt_mul (by rwa [pow_succ'] at h)
    rw [hexDigits, hexNumber?_append_digitChar (hexNumber?_hexDigits width (n / 16) hq) (Nat.mod_lt n (by omega)),
      Nat.div_add_mod]

end Text
end LoopNest
