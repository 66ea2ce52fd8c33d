import LoopNest.Text.Numeral
import Mathlib.Logic.Function.Basic
/-!
# Proofs.Text.Digits — the decimal digits of a number

The digits of a number have its value (`digitsValue_decimalDigits`), so different numbers have different digits.  There
is at least one, and each is a decimal digit.
-/
namespace LoopNest
namespace Text

theorem value_digitChar {d : Nat} (h : d < 10) : (digitChar d).toNat - 48 = d := by
  revert d
  decide

theorem digitsValue_decimalDigits (n : Nat) : digitsValue (decimalDigits n) = n := by
  unfold decimalDigits
  split
  · rename_i h
    simp only [digitsValue, List.foldl_cons, List.foldl_nil, value_digitChar h]
    omega
  · have hq := digitsValue_decimalDigits (n / 10)
    unfold digitsValue at hq ⊢
    rw [List.foldl_append, hq, List.foldl_cons, List.foldl_nil, value_digitChar (Nat.mod_lt n (by omega))]
    omega
termination_by n

theorem decimalDigits_injective : Function.Injective decimalDigits := by
  intro m n h
  rw [← digitsValue_decimalDigits m, h, digitsValue_decimalDigits]

theorem isDecimalDigit_digitChar {d : Nat} (h : d < 10) : isDecimalDigit (digitChar d) = true := by
  revert d
  decide

theorem isDecimalDigit_of_mem_decimalDigits (n : Nat) : ∀ c ∈ decimalDigits n, isDecimalDigit c = true := by
  intro c hc
  unfold decimalDigits at hc
  split at hc
  · rename_i h
    rw [List.mem_singleton.1 hc]
    exact isDecimalDigit_digitChar h
  · rcases List.mem_append.1 hc with hc | hc
    · exact isDecimalDigit_of_mem_decimalDigits (n / 10) c hc
    · rw [List.mem_singleton.1 hc]
      exact isDecimalDigit_digitChar (Nat.mod_lt n (by omega))
termination_by n

theorem decimalDigits_ne_nil (n : Nat) : decimalDigits n ≠ [] := by
  unfold decimalDigits
  split <;> simp

end Text

end LoopNest
