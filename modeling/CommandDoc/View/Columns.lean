/-!
# Columns

Rows of text whose second parts stand below each other.

Main definitions:

- `padTo` fills a text up with spaces.
- `columnWidth` is the width that a column takes.
-/

namespace CommandDoc.View

/-- A text with spaces behind it, up to `width` characters. -/
def padTo (width : Nat) (s : String) : String :=
  s ++ String.ofList (List.replicate (width - s.length) ' ')

/-- The width of a column: the size of its largest text, in bytes of its encoding. It is never less than
the number of characters. -/
def columnWidth (texts : List String) : Nat :=
  (texts.map String.utf8ByteSize).foldl max 0

end CommandDoc.View
