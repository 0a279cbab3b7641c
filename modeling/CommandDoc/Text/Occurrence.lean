/-!
# Places where a pattern occurs

A pattern looks at one place of a text: at the character before it and at the text from there on. If it
occurs there it says what it found and how many characters it takes. Reading a text from left to right,
the first place with an occurrence wins and the next search starts behind it; `segments` is that reading,
and searching, collecting and replacing are views of it.

Main definitions:

- `Pattern` and `segments`.
- `occursIn`, `firstFound?`, `allFound` and `replaceEach`.
-/

namespace CommandDoc.Text

/-- What a pattern finds at a place, and the number of characters it takes there (at least one). The
place is given by the character before it, `none` at the start of the text, and the text from it on. -/
abbrev Pattern (α : Type) := Option Char → List Char → Option (α × Nat)

/-- One step of reading a text: a character outside every occurrence, or an occurrence. -/
inductive Segment (α : Type) where
  /-- A character that belongs to no occurrence. -/
  | literal (c : Char)
  /-- An occurrence of the pattern. -/
  | hit (found : α)
  deriving Repr

/-- Read a text after `taken` more characters, which belong to the last occurrence. -/
def segmentsFrom {α : Type} (pattern : Pattern α) : Nat → Option Char → List Char → List (Segment α)
  | _, _, [] => []
  | taken + 1, _, c :: cs => segmentsFrom pattern taken (some c) cs
  | 0, before, c :: cs =>
    match pattern before (c :: cs) with
    | some (found, length) => .hit found :: segmentsFrom pattern (length - 1) (some c) cs
    | none => .literal c :: segmentsFrom pattern 0 (some c) cs

/-- Read a whole text. -/
def segments {α : Type} (pattern : Pattern α) (cs : List Char) : List (Segment α) :=
  segmentsFrom pattern 0 none cs

/-- What the occurrence of a segment found. -/
def Segment.found? {α : Type} : Segment α → Option α
  | .literal _ => none
  | .hit found => some found

/-- Everything that the occurrences in a text found, from left to right. -/
def allFound {α : Type} (pattern : Pattern α) (cs : List Char) : List α :=
  (segments pattern cs).filterMap Segment.found?

/-- What the first occurrence found. -/
def firstFound? {α : Type} (pattern : Pattern α) (cs : List Char) : Option α :=
  (allFound pattern cs).head?

/-- Whether a pattern occurs in a text. -/
def occursIn {α : Type} (pattern : Pattern α) (cs : List Char) : Bool :=
  (firstFound? pattern cs).isSome

/-- Put `replacement found` in place of each occurrence. -/
def replaceEach {α : Type} (pattern : Pattern α) (replacement : α → List Char) (cs : List Char) :
    List Char :=
  (segments pattern cs).flatMap fun
    | .literal c => [c]
    | .hit found => replacement found

end CommandDoc.Text
