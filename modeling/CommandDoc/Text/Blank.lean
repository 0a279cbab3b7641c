/-!
# Blank space

The characters that separate words in comments, and the operations that only look at them: trimming,
splitting into words, and collapsing runs of blanks to one space.

Main definitions:

- `isBlank` is the Unicode `White_Space` class.
- `fields` cuts a text at every character of a class; `words` keeps the non-empty fields between blanks.
- `collapse` writes the words with one space between two of them.
-/

namespace CommandDoc.Text

/-! ## The class -/

/-- The 25 code points with the Unicode property `White_Space`. -/
def isBlank (c : Char) : Bool :=
  let n := c.toNat
  (0x9 ≤ n && n ≤ 0xd) || n == 0x20 || n == 0x85 || n == 0xa0 || n == 0x1680
    || (0x2000 ≤ n && n ≤ 0x200a) || n == 0x2028 || n == 0x2029 || n == 0x202f || n == 0x205f
    || n == 0x3000

/-- A text without any character that is not blank. -/
def isBlankText (cs : List Char) : Bool :=
  cs.all isBlank

/-! ## Trimming -/

/-- Drop the longest final run of elements in the class `p`. -/
def dropTail {α : Type} (p : α → Bool) : List α → List α
  | [] => []
  | c :: cs =>
    match dropTail p cs with
    | [] => if p c then [] else [c]
    | rest => c :: rest

/-- Drop the blanks at the start of a text. -/
def trimStart (cs : List Char) : List Char :=
  cs.dropWhile isBlank

/-- Drop the blanks at the end of a text. -/
def trimEnd (cs : List Char) : List Char :=
  dropTail isBlank cs

/-- Drop the blanks at both ends of a text. -/
def trim (cs : List Char) : List Char :=
  trimEnd (trimStart cs)

/-- `trim` on a string. -/
def trimmed (s : String) : String :=
  String.ofList (trim s.toList)

/-! ## Cutting -/

/-- Cut a text at each character of the class `sep`; there is one field more than cuts. -/
def fields (sep : Char → Bool) : List Char → List (List Char)
  | [] => [[]]
  | c :: cs =>
    if sep c then [] :: fields sep cs
    else
      match fields sep cs with
      | [] => [[c]]
      | field :: rest => (c :: field) :: rest

/-- The non-empty fields between characters of the class `sep`. -/
def nonemptyFields (sep : Char → Bool) (cs : List Char) : List (List Char) :=
  (fields sep cs).filter fun field => !field.isEmpty

/-- The words of a text: its maximal runs of characters that are not blank. -/
def words (cs : List Char) : List (List Char) :=
  nonemptyFields isBlank cs

/-- The words of a text with one space between two neighbours. -/
def collapse (cs : List Char) : List Char :=
  List.intercalate [' '] (words cs)

/-! ## Small laws -/

/-- Every cut makes one field, so there is always a first one. -/
theorem fields_ne_nil (sep : Char → Bool) (cs : List Char) : fields sep cs ≠ [] := by
  cases cs with
  | nil => simp [fields]
  | cons c cs =>
    rw [fields]
    split
    · simp
    · split <;> simp

/-- No field holds a character at which the text is cut. -/
theorem not_sep_of_mem_fields {sep : Char → Bool} {cs field : List Char} {c : Char}
    (hfield : field ∈ fields sep cs) (hc : c ∈ field) : sep c = false := by
  induction cs generalizing field with
  | nil => simp_all [fields]
  | cons d cs ih =>
    rw [fields] at hfield
    split at hfield
    · rcases List.mem_cons.mp hfield with rfl | h
      · simp at hc
      · exact ih h hc
    · next hd =>
      split at hfield
      · next hnil => exact absurd hnil (fields_ne_nil sep cs)
      · next first rest heq =>
        rcases List.mem_cons.mp hfield with rfl | h
        · rcases List.mem_cons.mp hc with rfl | h
          · simpa using hd
          · exact ih (by simp [heq]) h
        · exact ih (by simp [heq, h]) hc

/-- No word holds a blank. -/
theorem not_isBlank_of_mem_words {cs word : List Char} {c : Char}
    (hword : word ∈ words cs) (hc : c ∈ word) : isBlank c = false :=
  not_sep_of_mem_fields (List.mem_filter.mp hword).1 hc

/-- Characters outside the class stop the trimming of the end. -/
theorem dropTail_concat (p : Char → Bool) (cs : List Char) (c : Char) :
    dropTail p (cs ++ [c]) = if p c then dropTail p cs else cs ++ [c] := by
  induction cs with
  | nil => simp [dropTail]
  | cons d cs ih =>
    simp only [List.cons_append, dropTail, ih]
    split <;> rename_i h
    · by_cases hp : p c
      · rw [if_pos hp] at h
        simp [hp, h]
      · simp [hp] at h
    · by_cases hp : p c
      · simp only [hp, if_true] at h ⊢
        split
        · next h' => exact absurd h' (by simpa using h)
        · rfl
      · simp [hp]

end CommandDoc.Text
