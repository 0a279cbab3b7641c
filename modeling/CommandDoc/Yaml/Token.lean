import CommandDoc.Yaml.ScalarText

/-!
# Tokens of YAML

A document is first cut into tokens. Indentation shows in them as the start and the end of block
collections, and a colon shows that what stood before it in its line was a key.

Main definitions:

- `Token`.
- `Scan`: a place in a text together with what was seen before it.
- `Token.ofText?`: the tokens of a text.
-/

namespace CommandDoc.Yaml

/-- A piece of a document. -/
inductive Token where
  /-- Three dashes at the start of a line. -/
  | documentStart
  /-- Three dots at the start of a line. -/
  | documentEnd
  /-- The place where the entries of an indented list begin. -/
  | blockListStart
  /-- The place where the keys of an indented map begin. -/
  | blockMapStart
  /-- The place where an indented list or map is over. -/
  | blockEnd
  /-- An opening bracket. -/
  | flowListStart
  /-- A closing bracket. -/
  | flowListEnd
  /-- An opening brace. -/
  | flowMapStart
  /-- A closing brace. -/
  | flowMapEnd
  /-- A comma between brackets or braces. -/
  | comma
  /-- A dash before an entry of a list. -/
  | dash
  /-- The place before a key. -/
  | key
  /-- The colon before a value. -/
  | value
  /-- A name given to the node that follows. -/
  | anchor (name : List Char)
  /-- A node named before. -/
  | reference (name : List Char)
  /-- A text, written plain or not. -/
  | scalar (text : List Char) (plain : Bool)
  deriving Repr, DecidableEq

/-! ## Scans -/

/-- A place where a key can have started, as the rest of its line will show. -/
structure KeyStart where
  /-- Whether only a key can stand there. -/
  required : Bool
  /-- The number of tokens before it. -/
  index : Nat
  /-- The line of the place. -/
  line : Nat
  /-- The column of the place. -/
  column : Nat
  deriving Repr, DecidableEq

/-- A place in a text together with what was seen before it. -/
structure Scan where
  /-- The place. -/
  place : Cursor
  /-- The columns of the indented collections around the place, the innermost first. -/
  indents : List Nat := []
  /-- Whether a key can start at the place. -/
  keyAllowed : Bool := true
  /-- The key that can have started in the innermost brackets. -/
  keyStart : Option KeyStart := none
  /-- The same for all brackets around the innermost. -/
  outerKeyStarts : List (Option KeyStart) := []
  /-- The tokens so far, the last one first. -/
  seen : List Token := []
  deriving Repr, DecidableEq

namespace Scan

/-- Whether the place is in brackets or braces. -/
def inFlow (scan : Scan) : Bool :=
  !scan.outerKeyStarts.isEmpty

/-- The column of the innermost indented collection, or one less than the first column. -/
def indent (scan : Scan) : Int :=
  match scan.indents with
  | [] => -1
  | column :: _ => column

/-- Add a token. -/
def push (scan : Scan) (token : Token) : Scan :=
  { scan with seen := token :: scan.seen }

/-- Add a token before all but the first `index` ones. -/
def insert (scan : Scan) (index : Nat) (token : Token) : Scan :=
  let later := scan.seen.length - index
  { scan with seen := scan.seen.take later ++ token :: scan.seen.drop later }

/-- Go on at another place. -/
def moveTo (scan : Scan) (place : Cursor) : Scan :=
  { scan with place }

/-- Let a key start at the place, or not. -/
def allowKey (scan : Scan) (allowed : Bool) : Scan :=
  { scan with keyAllowed := allowed }

/-- Add a token of one or more characters and go behind it. -/
def take (scan : Scan) (token : Token) (length : Nat) : Scan :=
  (scan.push token).moveTo (scan.place.skip length)

/-! ## Indentation -/

/-- End all collections indented deeper than a column. Brackets hide them. -/
def closeBelow (scan : Scan) (column : Int) : Scan :=
  if scan.inFlow then scan
  else
    let isDeeper (indent : Nat) : Bool := decide (column < indent)
    let closed := (scan.indents.takeWhile isDeeper).map fun _ => Token.blockEnd
    { scan with indents := scan.indents.dropWhile isDeeper, seen := closed ++ scan.seen }

/-- Start a collection at a column before all but the first `index` tokens, if it is deeper than the one
around it. -/
def openAt (scan : Scan) (column index : Nat) (start : Token) : Scan :=
  if !scan.inFlow && scan.indent < column then
    { scan.insert index start with indents := column :: scan.indents }
  else scan

/-- Start a collection at the place; there must be room for a key. -/
def openHere? (scan : Scan) (start : Token) : Option Scan :=
  if scan.inFlow then some scan
  else if scan.keyAllowed then some (scan.openAt scan.place.column scan.seen.length start)
  else none

/-! ## Keys -/

/-- Give up the key that can have started, unless it is required. -/
def dropKey? (scan : Scan) : Option Scan :=
  match scan.keyStart with
  | some start => if start.required then none else some { scan with keyStart := none }
  | none => some scan

/-- Note that a key can start at the place. -/
def markKey? (scan : Scan) : Option Scan :=
  if scan.keyAllowed then
    scan.dropKey?.map fun scan =>
      let place := scan.place
      let required := !scan.inFlow && scan.indent == place.column
      { scan with keyStart := some ⟨required, scan.seen.length, place.line, place.column⟩ }
  else some scan

/-- Give up a key that started in another line or more than 1024 characters before, unless it is required.
The result is absent if it is. -/
def refresh? (place : Cursor) (start : Option KeyStart) : Option (Option KeyStart) :=
  match start with
  | none => some none
  | some key =>
    if key.line < place.line || key.column + 1024 < place.column then
      if key.required then none else some none
    else some (some key)

/-- Give up all keys that started too far before the place. -/
def refreshKeys? (scan : Scan) : Option Scan := do
  let keyStart ← refresh? scan.place scan.keyStart
  let outerKeyStarts ← scan.outerKeyStarts.mapM (refresh? scan.place)
  return { scan with keyStart, outerKeyStarts }

/-! ## Gaps between tokens -/

/-- Go to the next token over blanks, comments and line ends, and over byte order marks that start a
line. -/
def skipGap : Nat → Scan → Scan
  | 0, scan => scan
  | fuel + 1, scan =>
    let isSkipped (c : Char) := c == ' ' || (c == '\t' && (scan.inFlow || !scan.keyAllowed))
    let spaced := scan.place.skipMark.skipWhile isSkipped
    let place :=
      if spaced.rest.head? == some '#' then spaced.skipWhile fun c => !isBreak c else spaced
    match place.rest with
    | c :: _ =>
      if isBreak c then
        let below := scan.moveTo place.skipBreak
        skipGap fuel (if scan.inFlow then below else below.allowKey true)
      else scan.moveTo place
    | [] => scan.moveTo place

/-! ## Single tokens -/

/-- Read a document marker, which ends all collections. -/
def marker? (scan : Scan) (token : Token) : Option Scan := do
  let closed ← (scan.closeBelow (-1)).dropKey?
  return (closed.allowKey false).take token 3

/-- Read an opening bracket or brace, with which a key can start. -/
def opening? (scan : Scan) (token : Token) : Option Scan := do
  let marked ← scan.markKey?
  let inner :=
    { marked with keyStart := none, outerKeyStarts := marked.keyStart :: marked.outerKeyStarts }
  return (inner.allowKey true).take token 1

/-- Read a closing bracket or brace. -/
def closing? (scan : Scan) (token : Token) : Option Scan := do
  let dropped ← scan.dropKey?
  let outer := match dropped.outerKeyStarts with
    | [] => dropped
    | keyStart :: outerKeyStarts => { dropped with keyStart, outerKeyStarts }
  return (outer.allowKey false).take token 1

/-- Read a comma. -/
def comma? (scan : Scan) : Option Scan := do
  return ((← scan.dropKey?).allowKey true).take .comma 1

/-- Read the dash of an entry. -/
def dash? (scan : Scan) : Option Scan := do
  let opened ← scan.openHere? .blockListStart
  return ((← opened.dropKey?).allowKey true).take .dash 1

/-- Read the question mark of a key. -/
def question? (scan : Scan) : Option Scan := do
  let opened ← scan.openHere? .blockMapStart
  return ((← opened.dropKey?).allowKey !scan.inFlow).take .key 1

/-- Read a colon. If a key can have started in its line, it did. -/
def colon? (scan : Scan) : Option Scan := do
  match scan.keyStart with
  | some start =>
    let keyed := (scan.insert start.index .key).openAt start.column start.index .blockMapStart
    return ({ keyed with keyStart := none }.allowKey false).take .value 1
  | none =>
    let opened ← scan.openHere? .blockMapStart
    return (opened.allowKey !scan.inFlow).take .value 1

/-- The characters of the name of an anchor. -/
def isNameChar (c : Char) : Bool :=
  c.isAlphanum || c == '_' || c == '-'

/-- Read an anchor or a reference to one. -/
def name? (scan : Scan) (token : List Char → Token) : Option Scan := do
  let marked ← scan.markKey?
  let name := (scan.place.skip 1).takeWhile isNameChar
  let behind := scan.place.rest.drop (name.length + 1)
  let ends := endsWord behind || (behind.head?.map "?:,]\x7d%@\x60".toList.contains).getD false
  if name.isEmpty || !ends then none
  else some ((marked.allowKey false).take (token name) (name.length + 1))

/-- Read a block of lines. -/
def block? (scan : Scan) (folded : Bool) : Option Scan := do
  let dropped ← scan.dropKey?
  let (text, place) ← scanBlock? folded scan.indent scan.place
  return ((dropped.allowKey true).push (.scalar text false)).moveTo place

/-- Read a text in quotes. -/
def quoted? (scan : Scan) (double : Bool) : Option Scan := do
  let marked ← scan.markKey?
  let (text, place) ← scanQuoted? double scan.place
  return ((marked.allowKey false).push (.scalar text false)).moveTo place

/-- Read a plain text. A key can start behind it only in another line. -/
def plain? (scan : Scan) : Option Scan := do
  let marked ← scan.markKey?
  let (text, sawBreak, place) ← scanPlain? scan.inFlow (scan.indent + 1).toNat scan.place
  return ((marked.allowKey sawBreak).push (.scalar text true)).moveTo place

/-- Whether a plain text can start with a character. -/
def startsPlain (inFlow : Bool) (c : Char) (rest : List Char) : Bool :=
  !isBreakOrBlank c && !"-?:,[]\x7b\x7d#&*!|>'\"%@\x60".toList.contains c
    || c == '-' && !(rest.head?.map isBlank).getD false
    || !inFlow && (c == '?' || c == ':') && !endsWord rest

/-- Read the token that starts with a character. -/
def token? (scan : Scan) (c : Char) (rest : List Char) : Option Scan :=
  let ends := endsWord rest
  if scan.place.column == 0 && c == '%' then none
  else if scan.place.isMarkerOf '-' then scan.marker? .documentStart
  else if scan.place.isMarkerOf '.' then scan.marker? .documentEnd
  else if c == '[' then scan.opening? .flowListStart
  else if c == '\x7b' then scan.opening? .flowMapStart
  else if c == ']' then scan.closing? .flowListEnd
  else if c == '\x7d' then scan.closing? .flowMapEnd
  else if c == ',' then scan.comma?
  else if c == '-' && ends then scan.dash?
  else if c == '?' && (scan.inFlow || ends) then scan.question?
  else if c == ':' && (scan.inFlow || ends) then scan.colon?
  else if c == '*' then scan.name? .reference
  else if c == '&' then scan.name? .anchor
  else if c == '|' && !scan.inFlow then scan.block? false
  else if c == '>' && !scan.inFlow then scan.block? true
  else if c == '\'' then scan.quoted? false
  else if c == '"' then scan.quoted? true
  else if startsPlain scan.inFlow c rest then scan.plain?
  else none

/-- Read all tokens. The fuel is one more than the number of characters left at least. -/
def tokens? : Nat → Scan → Option (List Token)
  | 0, _ => none
  | fuel + 1, scan => do
    let next ← (skipGap (fuel + 1) scan).refreshKeys?
    match next.place.rest with
    | [] => return (← (next.closeBelow (-1)).dropKey?).seen.reverse
    | c :: rest => tokens? fuel (← (next.closeBelow next.place.column).token? c rest)

end Scan

/-- The tokens of a text. -/
def Token.ofText? (text : String) : Option (List Token) :=
  if text.toList.all isReadable then
    let cs := unifyBreaks text.toList
    Scan.tokens? (cs.length + 1) { place := { rest := cs } }
  else none

end CommandDoc.Yaml
