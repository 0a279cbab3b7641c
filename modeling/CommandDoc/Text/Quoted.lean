import CommandDoc.Text.Blank

/-!
# Quoted values

A value in a comment can stand in double quotes, with a quote inside written as backslash and quote.

Main definitions:

- `unescapeQuotes` reads every escaped quote as a quote.
- `unquote` trims a value and takes its surrounding quotes away, if it has any.
-/

namespace CommandDoc.Text

/-- Read each backslash that a quote follows as that quote. -/
def unescapeQuotes : List Char → List Char
  | '\\' :: '"' :: cs => '"' :: unescapeQuotes cs
  | c :: cs => c :: unescapeQuotes cs
  | [] => []

/-- The inside of a text that starts and ends with a quote; the two have to be different characters of
the text. -/
def quotedInside? : List Char → Option (List Char)
  | '"' :: cs =>
    match cs.reverse with
    | '"' :: back => some back.reverse
    | _ => none
  | _ => none

/-- Trim a value; if quotes surround it, take them away and read the escaped quotes inside. -/
def unquote (cs : List Char) : List Char :=
  match quotedInside? (trim cs) with
  | some inside => unescapeQuotes inside
  | none => trim cs

/-- Text without a backslash has no escaped quote. -/
theorem unescapeQuotes_eq_self {cs : List Char} (h : '\\' ∉ cs) : unescapeQuotes cs = cs := by
  induction cs using unescapeQuotes.induct with
  | case1 cs ih => simp at h
  | case2 c cs hne ih =>
    rw [unescapeQuotes]
    · rw [ih (by simp_all)]
    · exact hne
  | case3 => rfl

/-- Quotes around a text are what `quotedInside?` takes away. -/
theorem quotedInside?_surround (cs : List Char) : quotedInside? ('"' :: (cs ++ ['"'])) = some cs := by
  simp [quotedInside?]

end CommandDoc.Text
