import EdgeInclude.Text.Decimal

/-!
# Decimal numbers and their digits

The digits of a number are read back as this number, and do not begin with a zero.
-/

namespace EdgeInclude.Text

theorem digitsValue_digits (n : Nat) : digitsValue (digits n) = n :=
  Nat.ofDigitChars_ten_toDigits

theorem digits_ne_nil (n : Nat) : digits n ≠ [] :=
  Nat.toDigits_ne_nil

theorem isDigit_of_mem_digits {n : Nat} {c : Char} (h : c ∈ digits n) : isDigit c = true :=
  Nat.isDigit_of_mem_toDigits (by omega) (Nat.le_refl 10) h

theorem digits_of_ten_le {n : Nat} (h : 10 ≤ n) :
    digits n = digits (n / 10) ++ [(n % 10).digitChar] :=
  Nat.toDigits_of_base_le (by omega) h

/-- The first digit is that of the number without its last digit, until only one is left. -/
theorem head?_digits_ne_zero {n : Nat} (h : 0 < n) : (digits n).head? ≠ some '0' := by
  induction n using Nat.strongRecOn with
  | ind n ih =>
    by_cases hten : 10 ≤ n
    · have hhead := ih (n / 10) (by omega) (by omega)
      obtain ⟨c, cs, hcs⟩ := List.exists_cons_of_ne_nil (digits_ne_nil (n / 10))
      rw [digits_of_ten_le hten]
      rwa [hcs] at hhead ⊢
    · rw [digits, Nat.toDigits_of_lt_base (by omega)]
      have hone : ∀ n < 10, 0 < n → [n.digitChar].head? ≠ some '0' := by decide
      exact hone n (by omega) h

end EdgeInclude.Text
