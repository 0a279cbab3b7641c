import CommandDoc.Data.Basic
import CommandDoc.Yaml.CharClass
import CommandDoc.Yaml.Scalar

/-!
# Writing YAML

A data tree as YAML in block style, two spaces per level, with lists not indented under their keys. A text
is written plain where that reads as the same text, and else in quotes; a text of several lines is written
as a literal block where the format allows it.

Main definitions:

- `Style` and `styleOf`: how a text is written.
- `scalarText` writes a text.
- `Yaml.render` writes a tree.
-/

namespace CommandDoc.Yaml

/-! ## The style of a text -/

/-- How a text is written. -/
inductive Style where
  /-- Without quotes. -/
  | plain
  /-- In single quotes. -/
  | single
  /-- In double quotes, with escapes. -/
  | double
  /-- As a block of lines. -/
  | literal
  deriving Repr, DecidableEq

/-- Whether two neighbours in a text satisfy `first` and `second`. -/
def hasPair (first second : Char → Bool) : List Char → Bool
  | c :: d :: cs => (first c && second d) || hasPair first second (d :: cs)
  | _ => false

/-- A space. -/
def isSpace (c : Char) : Bool :=
  c == ' '

/-- Characters that mean something at the start of a scalar. -/
def isIndicator (c : Char) : Bool :=
  "#,[]\x7b\x7d&*!|>'\"%@\x60".toList.contains c

/-- Whether the first character of a text means something there. -/
def startsWithIndicator : List Char → Bool
  | [] => false
  | c :: cs => isIndicator c || ((c == '?' || c == ':' || c == '-') && endsWord cs)

/-- Whether a text holds a colon before a blank, or a number sign behind one, after its first character. -/
def hasInnerIndicator : List Char → Bool
  | c :: d :: cs =>
    (d == ':' && endsWord cs) || (d == '#' && isBreakOrBlank c) || hasInnerIndicator (d :: cs)
  | _ => false

/-- Whether a text starts like a document marker. -/
def startsWithMarker (cs : List Char) : Bool :=
  cs.take 3 == ['-', '-', '-'] || cs.take 3 == ['.', '.', '.']

/-- Whether every character can be written as it is, with no line end behind a space. -/
def isVerbatim (cs : List Char) : Bool :=
  cs.all isPrintable && !hasPair isSpace isBreak cs

/-- Whether a text can be written without quotes. -/
def plainAllowed (cs : List Char) : Bool :=
  isVerbatim cs && !cs.any isBreak && cs.head? != some ' ' && cs.getLast? != some ' '
    && !startsWithMarker cs && !startsWithIndicator cs && !hasInnerIndicator cs

/-- Whether a text can be written in single quotes. -/
def singleAllowed (cs : List Char) : Bool :=
  isVerbatim cs && !hasPair isBreak isSpace cs

/-- Whether a text can be written as a literal block. -/
def literalAllowed (cs : List Char) : Bool :=
  isVerbatim cs && cs.getLast? != some ' '

/-- Whether a text without quotes is read as something else than a text. -/
def readsAsOther (s : String) : Bool :=
  match Scalar.ofPlain s with
  | .text => Scalar.isZeroPadded s.toList
  | .wide => false
  | _ => true

/-- The style a text is written in. -/
def styleOf (s : String) : Style :=
  let cs := s.toList
  if cs.contains '\n' then if literalAllowed cs then .literal else .double
  else if !readsAsOther s && plainAllowed cs then .plain
  else if singleAllowed cs then .single
  else .double

/-! ## Writing a text -/

/-- The upper case hexadecimal digit of a number below 16. -/
def upperHexDigit (n : Nat) : Char :=
  if n < 10 then Char.ofNat (n + 48) else Char.ofNat (n + 55)

/-- The lowest `width` hexadecimal digits of a number. -/
def hexDigits : Nat → Nat → List Char
  | 0, _ => []
  | width + 1, n => hexDigits width (n / 16) ++ [upperHexDigit (n % 16)]

/-- The letter behind the backslash in the short escape of a character. -/
def shortEscape? (c : Char) : Option Char :=
  let table : List (Nat × Char) :=
    [(0x0, '0'), (0x7, 'a'), (0x8, 'b'), (0x9, 't'), (0xa, 'n'), (0xb, 'v'), (0xc, 'f'), (0xd, 'r'),
      (0x1b, 'e'), (0x22, '"'), (0x5c, '\\'), (0x85, 'N'), (0xa0, '_'), (0x2028, 'L'), (0x2029, 'P')]
  (table.find? (·.1 == c.toNat)).map (·.2)

/-- The escape of a character. -/
def escape (c : Char) : List Char :=
  match shortEscape? c with
  | some letter => ['\\', letter]
  | none =>
    let n := c.toNat
    if n ≤ 0xff then '\\' :: 'x' :: hexDigits 2 n
    else if n ≤ 0xffff then '\\' :: 'u' :: hexDigits 4 n
    else '\\' :: 'U' :: hexDigits 8 n

/-- A character in double quotes. -/
def doubleQuotedChar (c : Char) : List Char :=
  if !isPrintable c || isBreak c || c == '"' || c == '\\' then escape c else [c]

/-- A text in double quotes. -/
def doubleQuoted (cs : List Char) : List Char :=
  '"' :: (cs.flatMap doubleQuotedChar ++ ['"'])

/-- The characters of a text, where the first of each line behind a line end is indented; `broken` says
whether the text stands behind one. -/
def indentLines (indent : Nat) (write : Char → List Char) (broken : Bool) : List Char → List Char
  | [] => []
  | c :: cs =>
    if isBreak c then c :: indentLines indent write true cs
    else
      (if broken then List.replicate indent ' ' else []) ++ write c ++ indentLines indent write false cs

/-- A text in single quotes, where quotes inside are doubled. -/
def singleQuoted (indent : Nat) (cs : List Char) : List Char :=
  let write (c : Char) : List Char := if c == '\'' then ['\'', '\''] else [c]
  let closing := if (cs.getLast?.map isBreak).getD false then List.replicate indent ' ' else []
  '\'' :: (indentLines indent write false cs ++ closing ++ ['\''])

/-- The mark behind a bar that says how a block ends: minus without a final line end, plus with more than
one or with nothing else. -/
def chompMark (cs : List Char) : List Char :=
  match cs.reverse with
  | [] => ['-']
  | [c] => if isBreak c then ['+'] else ['-']
  | c :: d :: _ => if !isBreak c then ['-'] else if isBreak d then ['+'] else []

/-- A text as a literal block. Its indentation is given if the text starts with a space or a line end. -/
def literalBlock (indent : Nat) (cs : List Char) : List Char :=
  let hint := match cs with
    | c :: _ => if c == ' ' || isBreak c then ['2'] else []
    | [] => []
  '|' :: (hint ++ chompMark cs ++ '\n' :: indentLines indent (fun c => [c]) true cs)

/-- A text in its style, up to and with the line end behind it. Lines of the text behind the first stand at
`indent`. -/
def scalarText (indent : Nat) (s : String) : String :=
  let cs := s.toList
  let close (written : List Char) : String := String.ofList (written ++ ['\n'])
  match styleOf s with
  | .plain => close cs
  | .single => close (singleQuoted indent cs)
  | .double => close (doubleQuoted cs)
  | .literal =>
    let written := literalBlock indent cs
    if (cs.getLast?.map isBreak).getD false then String.ofList written else close written

/-! ## Trees -/

/-- The spaces at the start of a line. -/
def margin (indent : Nat) : String :=
  String.ofList (List.replicate indent ' ')

/-- The name of a key. -/
def keyName : Key → String
  | .name text => text
  | .index n => toString n
  | .odd => "~"

mutual

/-- What stands behind the colon of a field, whose record stands at `indent`. -/
def fieldValue (indent : Nat) : Data → String
  | .null => " null\n"
  | .bool b => if b then " true\n" else " false\n"
  | .nat n => " " ++ toString n ++ "\n"
  | .minus n => " -" ++ toString n ++ "\n"
  | .decimal text => " " ++ text ++ "\n"
  | .text s => " " ++ scalarText (indent + 2) s
  | .list [] => " []\n"
  | .list items => "\n" ++ margin indent ++ (margin indent).intercalate (itemTexts indent items)
  | .record [] => " \x7b\x7d\n"
  | .record fields =>
    "\n" ++ margin (indent + 2) ++ (margin (indent + 2)).intercalate (fieldTexts (indent + 2) fields)

/-- What stands behind the dash of an element, whose list stands at `indent`. -/
def itemValue (indent : Nat) : Data → String
  | .null => " null\n"
  | .bool b => if b then " true\n" else " false\n"
  | .nat n => " " ++ toString n ++ "\n"
  | .minus n => " -" ++ toString n ++ "\n"
  | .decimal text => " " ++ text ++ "\n"
  | .text s => " " ++ scalarText (indent + 2) s
  | .list [] => " []\n"
  | .list items => " " ++ (margin (indent + 2)).intercalate (itemTexts (indent + 2) items)
  | .record [] => " \x7b\x7d\n"
  | .record fields => " " ++ (margin (indent + 2)).intercalate (fieldTexts (indent + 2) fields)

/-- The elements of a list at `indent`, each without the spaces before it. -/
def itemTexts (indent : Nat) : List Data → List String
  | [] => []
  | item :: items => ("-" ++ itemValue indent item) :: itemTexts indent items

/-- The fields of a record at `indent`, each without the spaces before it. -/
def fieldTexts (indent : Nat) : List (Key × Data) → List String
  | [] => []
  | (key, value) :: fields => (keyName key ++ ":" ++ fieldValue indent value) :: fieldTexts indent fields

end

/-- A document that holds a record. -/
def render : Data → String
  | .record [] => "\x7b\x7d\n"
  | .record fields => String.join (fieldTexts 0 fields)
  | .list [] => "[]\n"
  | .list items => String.join (itemTexts 0 items)
  | .null => "null\n"
  | .bool b => if b then "true\n" else "false\n"
  | .nat n => toString n ++ "\n"
  | .minus n => "-" ++ toString n ++ "\n"
  | .decimal text => text ++ "\n"
  | .text s => scalarText 2 s

end CommandDoc.Yaml
