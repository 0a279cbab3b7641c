import CommandDoc.Yaml.CharClass

/-!
# Places in a YAML text

A reader of YAML has to know in which line and column it stands, as indentation gives a document its
structure.

Main definitions:

- `unifyBreaks` leaves three of the characters that end lines.
- `Cursor` with `Cursor.skip` and `Cursor.skipWhile`.
- `Gap` and `Gap.scan`: blanks and line ends between two words of a scalar, and what they are read as.
-/

namespace CommandDoc.Yaml

/-- Make every line end a line feed, but keep the separators of lines and paragraphs. -/
def unifyBreaks : List Char → List Char
  | '\r' :: '\n' :: cs => '\n' :: unifyBreaks cs
  | c :: cs => (if c == '\r' || c.toNat == 0x85 then '\n' else c) :: unifyBreaks cs
  | [] => []

/-- A place in a text. -/
structure Cursor where
  /-- The text from the place on. -/
  rest : List Char
  /-- The number of lines before it. -/
  line : Nat := 0
  /-- The number of characters before it in its line. -/
  column : Nat := 0
  deriving Repr, DecidableEq

namespace Cursor

/-- The place behind `n` more characters of a line. -/
def skip (at_ : Cursor) (n : Nat) : Cursor :=
  { at_ with rest := at_.rest.drop n, column := at_.column + n }

/-- The place behind one line end. -/
def skipBreak (at_ : Cursor) : Cursor :=
  { rest := at_.rest.drop 1, line := at_.line + 1, column := 0 }

/-- The characters of a line up to the first outside a class. -/
def takeWhile (p : Char → Bool) (at_ : Cursor) : List Char :=
  at_.rest.takeWhile p

/-- The place behind them. -/
def skipWhile (p : Char → Bool) (at_ : Cursor) : Cursor :=
  { at_ with rest := at_.rest.dropWhile p, column := at_.column + (at_.rest.takeWhile p).length }

/-- The place behind a byte order mark at the start of a line, which counts as a column. -/
def skipMark (at_ : Cursor) : Cursor :=
  if at_.column == 0 && (at_.rest.head?.map isByteOrderMark).getD false then at_.skip 1 else at_

/-- Whether three of a character fill the start of a line, up to a blank. -/
def isMarkerOf (c : Char) (at_ : Cursor) : Bool :=
  at_.column == 0 && at_.rest.take 3 == [c, c, c] && endsWord (at_.rest.drop 3)

/-- Whether a line starts with a document marker. -/
def isMarker (at_ : Cursor) : Bool :=
  at_.isMarkerOf '-' || at_.isMarkerOf '.'

end Cursor

/-! ## Gaps -/

/-- Blanks and line ends between two words of a scalar. -/
structure Gap where
  /-- The blanks before the first line end. -/
  blanks : List Char := []
  /-- The line ends. -/
  breaks : List Char := []
  /-- Whether an escaped line end came first. -/
  escaped : Bool := false
  deriving Repr, DecidableEq

namespace Gap

/-- Whether a gap goes over more than one line. -/
def isBroken (gap : Gap) : Bool :=
  gap.escaped || !gap.breaks.isEmpty

/-- What a gap is read as: one line end as a space, more of them as one less, and blanks of a single line
as they are. -/
def text (gap : Gap) : List Char :=
  if gap.escaped then gap.breaks
  else
    match gap.breaks with
    | [] => gap.blanks
    | '\n' :: [] => [' ']
    | '\n' :: more => more
    | breaks => breaks

/-- Read on in a gap, which a tab before column `limit` must not indent. -/
def scanFrom? (limit : Nat) (gap : Gap) (line column : Nat) : List Char → Option (Gap × Cursor)
  | [] => some (gap, ⟨[], line, column⟩)
  | c :: cs =>
    if isBlank c then
      if gap.isBroken then
        if c == '\t' && column < limit then none else scanFrom? limit gap line (column + 1) cs
      else scanFrom? limit { gap with blanks := gap.blanks ++ [c] } line (column + 1) cs
    else if isBreak c then scanFrom? limit { gap with breaks := gap.breaks ++ [c] } (line + 1) 0 cs
    else some (gap, ⟨c :: cs, line, column⟩)

/-- Read a gap to its end. -/
def scan? (limit : Nat) (gap : Gap) (at_ : Cursor) : Option (Gap × Cursor) :=
  scanFrom? limit gap at_.line at_.column at_.rest

end Gap

end CommandDoc.Yaml
