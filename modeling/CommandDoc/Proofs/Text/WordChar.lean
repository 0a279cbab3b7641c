import CommandDoc.Proofs.Comment.LineForm
import CommandDoc.Proofs.Text.LetterCase
import CommandDoc.Text.WordChar

/-!
# Characters that are not blank

The tables of word characters and of decimal digits hold no blank.  The blanks are few ranges of code points,
so a table is compared with them range by range.

Main definitions:

- `blankRanges` and `AvoidsBlanks`: the blanks as ranges, and the ranges that hold none.

Main results:

- Theorem `isBlank_eq_false_of_isWordChar`: no word character is blank.
- Theorem `isBlank_eq_false_of_isDecimalDigit`: no decimal digit is blank.
-/

namespace CommandDoc.Text

/-! ## Ranges without blanks -/

/-- The blanks as closed ranges of code points. -/
def blankRanges : List (Nat × Nat) :=
  [(0x9, 0xd), (0x20, 0x20), (0x85, 0x85), (0xa0, 0xa0), (0x1680, 0x1680), (0x2000, 0x200a),
   (0x2028, 0x2029), (0x202f, 0x202f), (0x205f, 0x205f), (0x3000, 0x3000)]

/-- The code points from `first` to `last` hold no blank. -/
def AvoidsBlanks (first last : Nat) : Prop :=
  ∀ range ∈ blankRanges, range.2 < first ∨ last < range.1

instance (first last : Nat) : Decidable (AvoidsBlanks first last) :=
  inferInstanceAs (Decidable (∀ range ∈ blankRanges, _))

theorem AvoidsBlanks.isBlank_eq_false {first last : Nat} (h : AvoidsBlanks first last) {c : Char}
    (hfirst : first ≤ c.toNat) (hlast : c.toNat ≤ last) : isBlank c = false := by
  simp only [AvoidsBlanks, blankRanges, List.forall_mem_cons, List.not_mem_nil, false_imp_iff, implies_true,
    and_true] at h
  simp only [isBlank, Bool.or_eq_false_iff, beq_eq_false_iff_ne, Bool.and_eq_false_iff,
    decide_eq_false_iff_not]
  omega

/-- No word character is blank. -/
theorem isBlank_eq_false_of_isWordChar {c : Char} (h : isWordChar c = true) : isBlank c = false := by
  rw [isWordChar] at h
  split at h
  · exact isBlank_eq_false_of_isIdentifierChar h
  · have htable : ∀ range ∈ wordRanges, AvoidsBlanks range.1 range.2 := by decide +kernel
    rcases List.any_eq_true.mp h with ⟨range, hmem, hrange⟩
    simp only [Bool.and_eq_true, decide_eq_true_eq] at hrange
    exact (htable range hmem).isBlank_eq_false hrange.1 hrange.2

/-- No decimal digit is blank. -/
theorem isBlank_eq_false_of_isDecimalDigit {c : Char} (h : isDecimalDigit c = true) : isBlank c = false := by
  rw [isDecimalDigit] at h
  split at h
  · exact isBlank_eq_false_of_isAlphanum (by rw [Char.isAlphanum, h, Bool.or_true])
  · have htable : ∀ first ∈ digitZeros, AvoidsBlanks first (first + 9) := by decide +kernel
    rcases List.any_eq_true.mp h with ⟨first, hmem, hrange⟩
    simp only [Bool.and_eq_true, decide_eq_true_eq] at hrange
    exact (htable first hmem).isBlank_eq_false hrange.1 hrange.2

theorem isWordChar_eq_false_of_isBlank {c : Char} (h : isBlank c = true) : isWordChar c = false := by
  rw [← Bool.not_eq_true]
  intro hword
  rw [isBlank_eq_false_of_isWordChar hword] at h
  cases h

theorem isDecimalDigit_eq_false_of_isBlank {c : Char} (h : isBlank c = true) : isDecimalDigit c = false := by
  rw [← Bool.not_eq_true]
  intro hdigit
  rw [isBlank_eq_false_of_isDecimalDigit hdigit] at h
  cases h

theorem isLower_eq_false_of_isBlank {c : Char} (h : isBlank c = true) : c.isLower = false := by
  by_contra hlower
  rw [Bool.not_eq_false] at hlower
  have halphanum : c.isAlphanum = true := by
    unfold Char.isAlphanum Char.isAlpha
    simp [hlower]
  rw [isBlank_eq_false_of_isAlphanum halphanum] at h
  exact Bool.false_ne_true h

end CommandDoc.Text
