import CommandDoc.Text.Blank
import CommandDoc.Text.LetterCase

/-!
# The lines of a doc comment

A doc comment can come with its markers or without them, and with any line ends. Both are removed before
its lines are read.

Main definitions:

- `textLines` cuts a text into lines.
- `normalizedLines` and `normalize` remove line markers, block fences and blanks at line ends.
-/

namespace CommandDoc.Comment

open Text

/-! ## Line ends -/

/-- Make every line end a line feed. -/
def unifyBreaks : List Char → List Char
  | '\r' :: '\n' :: cs => '\n' :: unifyBreaks cs
  | '\r' :: cs => '\n' :: unifyBreaks cs
  | c :: cs => c :: unifyBreaks cs
  | [] => []

/-- Drop the last line if it is empty, as nothing follows the last line end. -/
def dropEmptyLast : List (List Char) → List (List Char)
  | [] => []
  | [[]] => []
  | line :: lines => line :: dropEmptyLast lines

/-- The lines of a text, where a line feed ends each of them. -/
def textLines (cs : List Char) : List (List Char) :=
  dropEmptyLast (fields (· == '\n') cs)

/-! ## Block comments -/

/-- Whether a text consists of stars, at least one. -/
def isStars (cs : List Char) : Bool :=
  !cs.isEmpty && cs.all (· == '*')

/-- Whether a line holds nothing but the start or the end of a block comment. -/
def isFence (line : List Char) : Bool :=
  match trim line with
  | '/' :: rest => isStars rest
  | trimmed =>
    match trimmed.reverse with
    | '/' :: back => isStars back
    | _ => false

/-- Drop one blank at the start of a text. -/
def dropBlank : List Char → List Char
  | c :: cs => if isBlank c then cs else c :: cs
  | [] => []

/-- The text before the end of a block comment that ends a line, without stars and blanks before it. -/
def beforeBlockEnd? (cs : List Char) : Option (List Char) :=
  match (trimEnd cs).reverse with
  | '/' :: '*' :: back => some (trimEnd (back.dropWhile (· == '*')).reverse)
  | _ => none

/-- The inside of a block comment that fills one line. The stars that open it can be the ones that close it,
too, if there are two of them. -/
def blockInside? (line : List Char) : Option (List Char) :=
  match trimStart line with
  | '/' :: '*' :: more =>
    let inside := more.dropWhile (· == '*')
    (beforeBlockEnd? (dropBlank inside)).or
      (if more.head? == some '*' then beforeBlockEnd? ('*' :: inside) else none)
  | _ => none

/-- A line without the block comment around it, if there is one. -/
def unwrapBlock (line : List Char) : List Char :=
  (blockInside? line).getD line

/-! ## Line comments -/

/-- The text behind the marker of a line comment. -/
def afterMarker? (line : List Char) : Option (List Char) :=
  afterExactly? ['/', '/'] (trimStart line)

/-- Whether a line is blank or has the marker of a line comment. -/
def isMarked (line : List Char) : Bool :=
  isBlankText line || (afterMarker? line).isSome

/-- A line without the marker and one space behind it. -/
def dropMarker (line : List Char) : List Char :=
  match (afterMarker? line).getD line with
  | ' ' :: rest => rest
  | rest => rest

/-! ## Both -/

/-- The lines of a comment without block fences and the block comments around single lines. -/
def unfencedLines (raw : List Char) : List (List Char) :=
  ((textLines (unifyBreaks raw)).filter fun line => !isFence line).map unwrapBlock

/-- The lines of a comment without its markers. Line markers are removed only if every line has one that
is not blank. -/
def normalizedLines (raw : List Char) : List (List Char) :=
  let lines := unfencedLines raw
  (if lines.all isMarked then lines.map dropMarker else lines).map trimEnd

/-- A comment without its markers. -/
def normalize (raw : List Char) : List Char :=
  List.intercalate ['\n'] (normalizedLines raw)

/-- The lines of a comment as they are read. -/
def readableLines (raw : List Char) : List (List Char) :=
  textLines (normalize raw)

end CommandDoc.Comment
