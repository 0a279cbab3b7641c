import CommandDoc.Decimal

/-!
# Decimal numbers that are read back

A natural number is read back from its decimal digits, and only zero is written with a zero in front.

Main results:

- Theorem `Decimal.digitsFrom?_eq_some`: digits are read behind digits that have been read before.
- Theorems `Decimal.digitsValue?_toDigits` and `Decimal.natValue_toDigits`: a number is read back.
- Theorem `Decimal.head?_toDigits_ne_zero`: only zero is written with a zero in front.
-/

namespace CommandDoc.Decimal

variable {n : Nat} {c : Char}

/-! ## Writing -/

/-- A number is written in digits. -/
theorem isDigit_of_mem_toDigits (h : c ∈ Nat.toDigits 10 n) : c.isDigit = true :=
  Nat.isDigit_of_mem_toDigits (by decide) (by decide) h

/-- The text of a number consists of digits. -/
theorem isDigit_of_mem_toString (h : c ∈ (toString n).toList) : c.isDigit = true := by
  rw [Nat.toString_eq_repr, Nat.toList_repr] at h
  exact isDigit_of_mem_toDigits h

/-- Only zero is written with a zero in front. -/
theorem head?_toDigits_ne_zero (hn : 0 < n) : (Nat.toDigits 10 n).head? ≠ some '0' := by
  induction n using Nat.strongRecOn with
  | ind n ih =>
    by_cases hsmall : n < 10
    · rw [Nat.toDigits_of_lt_base hsmall]
      simp
      omega
    · have hhead := ih (n / 10) (by omega) (by omega)
      rw [Nat.toDigits_of_base_le (by decide) (by omega)]
      cases hdigits : Nat.toDigits 10 (n / 10) with
      | nil => exact absurd hdigits Nat.toDigits_ne_nil
      | cons c cs =>
        rw [hdigits] at hhead
        exact hhead

/-! ## Reading -/

/-- The value of a decimal digit is how far it is from zero. -/
theorem digitValue?_of_isDigit (h : c.isDigit = true) : digitValue? c = some (c.toNat - 48) := by
  rw [Char.isDigit, Bool.and_eq_true, decide_eq_true_eq, decide_eq_true_eq] at h
  rw [digitValue?, if_pos]
  rw [Bool.and_eq_true, decide_eq_true_eq, decide_eq_true_eq]
  exact h

/-- Decimal digits are read behind digits that have been read before. -/
theorem digitsFrom?_eq_some {cs : List Char} (h : ∀ c ∈ cs, c.isDigit = true) (value : Nat) :
    digitsFrom? 10 value cs = some (Nat.ofDigitChars 10 cs value) := by
  induction cs generalizing value with
  | nil => rfl
  | cons c cs ih =>
    have hc := h c List.mem_cons_self
    have hsmall : c.toNat - 48 < 10 := by
      simp only [Char.isDigit, Bool.and_eq_true, decide_eq_true_eq, UInt32.le_iff_toNat_le] at hc
      have hnine : c.toNat ≤ 57 := hc.2
      omega
    rw [digitsFrom?, digitValue?_of_isDigit hc, Nat.ofDigitChars_cons, Nat.mul_comm 10 value]
    simp only [hsmall, if_true]
    exact ih (fun d hd => h d (List.mem_cons_of_mem _ hd)) _

/-- The digits of a number have its value. -/
theorem digitsFrom?_toDigits (n : Nat) : digitsFrom? 10 0 (Nat.toDigits 10 n) = some n := by
  rw [digitsFrom?_eq_some fun c hc => isDigit_of_mem_toDigits hc,
    Nat.ofDigitChars_toDigits (by decide) (by decide)]

/-- A number is read back from its digits, of which there is one at least. -/
theorem digitsValue?_toDigits (n : Nat) : digitsValue? 10 (Nat.toDigits 10 n) = some n := by
  rw [digitsValue?, if_neg (by simp [Nat.toDigits_ne_nil]), digitsFrom?_toDigits]

/-- So it is if no digits would be zero. -/
theorem natValue_toDigits (n : Nat) : natValue (Nat.toDigits 10 n) = n := by
  rw [natValue, digitsFrom?_toDigits, Option.getD_some]

end CommandDoc.Decimal
