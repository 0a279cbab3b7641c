/-!
# Character classes of YAML

Main definitions:

- `isBreak`, `isBreakOrBlank`: where lines and words end.
- `isByteOrderMark`: what can stand before a line without a meaning.
- `isPrintable`: what is written as it is.
- `isReadable`: what can stand in a document.
-/

namespace CommandDoc.Yaml

/-- The characters that end a line. -/
def isBreak (c : Char) : Bool :=
  c == '\n' || c == '\r' || c.toNat == 0x85 || c.toNat == 0x2028 || c.toNat == 0x2029

/-- A space or a tab. -/
def isBlank (c : Char) : Bool :=
  c == ' ' || c == '\t'

/-- A space, a tab, or a character that ends a line. -/
def isBreakOrBlank (c : Char) : Bool :=
  isBlank c || isBreak c

/-- Whether a text is at its end, or goes on with a space, a tab or a line end. -/
def endsWord : List Char → Bool
  | [] => true
  | c :: _ => isBreakOrBlank c

/-- The byte order mark. -/
def isByteOrderMark (c : Char) : Bool :=
  c.toNat == 0xfeff

/-- Characters that are written as they are: all but control characters other than the line feed, the byte
order mark, and the last two code points of the basic plane. -/
def isPrintable (c : Char) : Bool :=
  let n := c.toNat
  n == 0xa || (0x20 ≤ n && n ≤ 0x7e) || (0xa0 ≤ n && n ≤ 0xfffd && !isByteOrderMark c) || 0x10000 ≤ n

/-- Characters that can stand in a document. -/
def isReadable (c : Char) : Bool :=
  let n := c.toNat
  n == 0x9 || n == 0xa || n == 0xd || (0x20 ≤ n && n ≤ 0x7e) || n == 0x85
    || (0xa0 ≤ n && n ≤ 0xfffd) || 0x10000 ≤ n

end CommandDoc.Yaml
