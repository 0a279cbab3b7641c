import CommandDoc.Json.Printer
import CommandDoc.Json.Reader
import CommandDoc.Proofs.Decimal
import CommandDoc.Proofs.Text.Blank

/-!
# Strings and numbers in JSON text

A string literal is read back as it was written, whatever stands behind it.  So is a number of at most 64 bits,
unless what stands behind it goes on with the number.

Main definitions:

- `Data.IsCount`: numbers of at most 64 bits.
- `Json.EndsValue`: what can stand behind a value.

Main results:

- Theorem `Json.readLiteral_flatMap`: the characters of a written string are read back.
- Theorem `Json.readNumber_toDigits`: a written number is read back.
-/

namespace CommandDoc

/-- A number of at most 64 bits. -/
def Data.IsCount (n : Nat) : Prop :=
  n < 18446744073709551616

namespace Json

/-! ## Strings -/

/-- The four digits of a control character are read back. -/
theorem hexQuad?_hexDigit {n : Nat} (h : n < 0x20) (rest : List Char) :
    hexQuad? ('0' :: '0' :: hexDigit (n / 16) :: hexDigit (n % 16) :: rest) = some (n, rest) := by
  have hvalue : ∀ m < 0x20,
      Decimal.digitsValue? 16 ['0', '0', hexDigit (m / 16), hexDigit (m % 16)] = some m := by
    decide
  rw [hexQuad?, hvalue n h, Option.map_some]

theorem readEscape_control {c : Char} (h : c.toNat < 0x20) (rest : List Char) :
    readEscape ('u' :: '0' :: '0' :: hexDigit (c.toNat / 16) :: hexDigit (c.toNat % 16) :: rest)
      = some (c, rest) := by
  have hfirst : c.toNat < 0xd800 := by omega
  simp [readEscape, readUnicode, hexQuad?_hexDigit h, hfirst, Char.ofNat_toNat]

section Literal

variable {fuel : Nat} {c : Char} {rest : List Char}

/-- Behind a backslash, the escape of a character is read as that character. -/
theorem readLiteral_escape {escape : List Char} (h : readEscape (escape ++ rest) = some (c, rest)) :
    readLiteral (fuel + 1) ('\\' :: escape ++ rest)
      = (readLiteral fuel rest).map fun found => (c :: found.1, found.2) := by
  rw [List.cons_append, readLiteral, if_neg (by decide), if_pos (by decide), h]
  cases hrest : readLiteral fuel rest <;> simp [hrest]

theorem readLiteral_plain (hquote : c ≠ '"') (hslash : c ≠ '\\') (hcontrol : ¬ c.toNat < 0x20) :
    readLiteral (fuel + 1) (c :: rest)
      = (readLiteral fuel rest).map fun found => (c :: found.1, found.2) := by
  rw [readLiteral, if_neg (by simpa using hquote), if_neg (by simpa using hslash), if_neg hcontrol]
  cases readLiteral fuel rest <;> simp

/-- A written character is read back in one step. -/
theorem readLiteral_quoteChar (fuel : Nat) (c : Char) (rest : List Char) :
    readLiteral (fuel + 1) (quoteChar c ++ rest)
      = (readLiteral fuel rest).map fun found => (c :: found.1, found.2) := by
  have hcode : ∀ n, (c.toNat == n) = true → c = Char.ofNat n := by
    intro n hn
    rw [← Char.ofNat_toNat c, beq_iff_eq.mp hn]
  unfold quoteChar
  split_ifs with hquote hslash hback hfeed hline hreturn htab hcontrol
  · rw [beq_iff_eq.mp hquote]
    exact readLiteral_escape rfl
  · rw [beq_iff_eq.mp hslash]
    exact readLiteral_escape rfl
  · rw [hcode _ hback]
    exact readLiteral_escape rfl
  · rw [hcode _ hfeed]
    exact readLiteral_escape rfl
  · rw [beq_iff_eq.mp hline]
    exact readLiteral_escape rfl
  · rw [beq_iff_eq.mp hreturn]
    exact readLiteral_escape rfl
  · rw [beq_iff_eq.mp htab]
    exact readLiteral_escape rfl
  · exact readLiteral_escape (readEscape_control hcontrol rest)
  · exact readLiteral_plain (by simpa using hquote) (by simpa using hslash) hcontrol

end Literal

/-- The characters of a written string are read back, from behind the opening quote. -/
theorem readLiteral_flatMap {s : List Char} {fuel : Nat} (hfuel : s.length < fuel) (rest : List Char) :
    readLiteral fuel (s.flatMap quoteChar ++ '"' :: rest) = some (s, rest) := by
  induction s generalizing fuel with
  | nil =>
    cases fuel with
    | zero => simp at hfuel
    | succ fuel => rfl
  | cons c s ih =>
    cases fuel with
    | zero => simp at hfuel
    | succ fuel =>
      rw [List.flatMap_cons, List.append_assoc, readLiteral_quoteChar, ih (by simpa using hfuel),
        Option.map_some]

theorem length_le_flatMap_quoteChar (s : List Char) : s.length ≤ (s.flatMap quoteChar).length := by
  induction s with
  | nil => simp
  | cons c s ih =>
    have hc : 1 ≤ (quoteChar c).length := by
      unfold quoteChar
      split_ifs <;> simp
    rw [List.flatMap_cons, List.length_append, List.length_cons]
    omega

/-! ## Numbers -/

/-- What can stand behind a value: nothing, or a text that starts with a blank, a comma or a closing
bracket. -/
def EndsValue (rest : List Char) : Prop :=
  ∀ c ∈ rest.head?, c ∈ [' ', '\n', '\t', '\r', ',', ']', '\x7d']

section Number

variable {n : Nat} {rest : List Char}

theorem readInteger_toDigits (n : Nat) (h : EndsValue rest) :
    readInteger (Nat.toDigits 10 n ++ rest) = some (Nat.toDigits 10 n, rest) := by
  have hend : ∀ c ∈ [' ', '\n', '\t', '\r', ',', ']', '\x7d'], c.isDigit = false := by simp
  have hstop : ∀ c ∈ rest.head?, c.isDigit = false := fun c hc => hend c (h c hc)
  rw [readInteger, Text.takeWhile_append_of_head? (fun c hc => Decimal.isDigit_of_mem_toDigits hc) hstop,
    Text.dropWhile_append_of_head? (fun c hc => Decimal.isDigit_of_mem_toDigits hc) hstop]
  rcases Nat.eq_zero_or_pos n with rfl | hn
  · rfl
  · have hzero := Decimal.head?_toDigits_ne_zero hn
    cases hdigits : Nat.toDigits 10 n with
    | nil => exact absurd hdigits Nat.toDigits_ne_nil
    | cons c cs =>
      have hc : c ≠ '0' := by simpa [hdigits] using hzero
      simp [hc]

theorem readFraction_of_endsValue (h : EndsValue rest) : readFraction rest = some ([], rest) := by
  unfold readFraction
  split
  · exact absurd (h '.' rfl) (by decide)
  · rfl

theorem readExponent_of_endsValue (h : EndsValue rest) : readExponent rest = some (false, [], rest) := by
  cases rest with
  | nil => rfl
  | cons c rest =>
    have hend : ∀ c ∈ [' ', '\n', '\t', '\r', ',', ']', '\x7d'], (c == 'e' || c == 'E') = false := by
      simp
    simp [readExponent, hend c (h c rfl)]

/-- A written number is read back, if it fits into 64 bits. -/
theorem readNumber_toDigits (hn : Data.IsCount n) (h : EndsValue rest) :
    readNumber (Nat.toDigits 10 n ++ rest) = some (.nat n, rest) := by
  have hdash : '-' ∉ Nat.toDigits 10 n := fun hmem =>
    absurd (Decimal.isDigit_of_mem_toDigits hmem) (by decide)
  unfold readNumber
  split
  case h_1 negative unsigned hsign =>
    split at hsign
    case h_1 more hcs =>
      cases hdigits : Nat.toDigits 10 n with
      | nil => exact absurd hdigits Nat.toDigits_ne_nil
      | cons c cs =>
        rw [hdigits] at hcs hdash
        exact absurd (List.cons.inj hcs).1 fun hc => hdash (hc ▸ List.mem_cons_self)
    case h_2 =>
      obtain ⟨rfl, rfl⟩ := Prod.mk.inj hsign
      rw [Data.IsCount] at hn
      simp [readInteger_toDigits n h, readFraction_of_endsValue h, readExponent_of_endsValue h, numberValue?,
        Decimal.natValue_toDigits, hn]

end Number

end Json

end CommandDoc
