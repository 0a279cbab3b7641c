import CommandDoc.Text.Blank
import CommandDoc.Text.Nesting

/-!
# Attribute blocks

The text about a parameter can open or close with one parenthesised block of attributes. A group in the
middle of a sentence is prose.

Main definitions:

- `AttributeBlock.ofText?` takes a text apart into its block and what remains.
-/

namespace CommandDoc

/-- A block of attributes and the text around it. -/
structure AttributeBlock where
  /-- The inside of the parentheses, trimmed. -/
  content : List Char
  /-- The text outside, with its blanks collapsed. -/
  remainder : List Char
  deriving Repr, DecidableEq

namespace AttributeBlock

/-- The block that opens a trimmed text. -/
def leading? (trimmed : List Char) : Option AttributeBlock :=
  (Text.takeGroup? trimmed).map fun (inner, rest) => ⟨Text.trim inner, Text.collapse rest⟩

/-- The block that closes a trimmed text. -/
def trailing? (trimmed : List Char) : Option AttributeBlock :=
  (Text.takeGroupBack? trimmed).map fun (before, inner) => ⟨Text.trim inner, Text.collapse before⟩

/-- The block of a text: the one that opens it, or else the one that closes it. -/
def ofText? (cs : List Char) : Option AttributeBlock :=
  (leading? (Text.trim cs)).or (trailing? (Text.trim cs))

end AttributeBlock

end CommandDoc
