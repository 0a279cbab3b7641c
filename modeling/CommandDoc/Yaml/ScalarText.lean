import CommandDoc.Decimal
import CommandDoc.Yaml.Cursor

/-!
# The texts of scalars

Scalars are written plain, in single or double quotes, or as blocks of lines. Each way has its own rules
for line ends, indentation and escapes.

Main definitions:

- `scanPlain?`, `scanQuoted?` and `scanBlock?`: the text of a scalar at a place, and the place behind it.
-/

namespace CommandDoc.Yaml

/-! ## Plain scalars -/

/-- The characters of a plain scalar up to a blank, a colon before a blank, or in a flow collection a
bracket or comma. A colon right before one of these is refused there. -/
def plainRun? (inFlow : Bool) : List Char → Option (List Char)
  | [] => some []
  | c :: cs =>
    if isBreakOrBlank c then some []
    else if inFlow && c == ':' && (cs.head?.map fun d => ",?[]\x7b\x7d".toList.contains d).getD false then
      none
    else if c == ':' && endsWord cs then some []
    else if inFlow && ",[]\x7b\x7d".toList.contains c then some []
    else (plainRun? inFlow cs).map (c :: ·)

/-- Read on in a plain scalar behind the text `done` and a gap. The result says whether the gap before its
end goes over more than one line. -/
def scanPlainFrom? (inFlow : Bool) (limit : Nat) :
    Nat → List Char → Gap → Cursor → Option (List Char × Bool × Cursor)
  | 0, _, _, _ => none
  | fuel + 1, done, gap, at_ =>
    if at_.isMarker || at_.rest.head? == some '#' then some (done, gap.isBroken, at_)
    else
      match plainRun? inFlow at_.rest with
      | none => none
      | some run =>
        let text := if run.isEmpty then done else done ++ gap.text ++ run
        let pending : Gap := if run.isEmpty then gap else {}
        let behind := at_.skip run.length
        match behind.rest with
        | [] => some (text, pending.isBroken, behind)
        | c :: _ =>
          if !isBreakOrBlank c then some (text, pending.isBroken, behind)
          else
            match Gap.scan? limit {} behind with
            | none => none
            | some (next, place) =>
              if !inFlow && place.column < limit then some (text, next.isBroken, place)
              else scanPlainFrom? inFlow limit fuel text next place

/-- Read a plain scalar whose lines stand at column `limit` at least. -/
def scanPlain? (inFlow : Bool) (limit : Nat) (at_ : Cursor) : Option (List Char × Bool × Cursor) :=
  scanPlainFrom? inFlow limit (at_.rest.length + 1) [] {} at_

/-! ## Quoted scalars -/

/-- The character of a short escape, by the letter behind the backslash. -/
def shortEscapes : List (Char × Nat) :=
  [('0', 0x0), ('a', 0x7), ('b', 0x8), ('t', 0x9), ('\t', 0x9), ('n', 0xa), ('v', 0xb), ('f', 0xc),
    ('r', 0xd), ('e', 0x1b), (' ', 0x20), ('"', 0x22), ('/', 0x2f), ('\\', 0x5c), ('N', 0x85),
    ('_', 0xa0), ('L', 0x2028), ('P', 0x2029)]

/-- The number of hexadecimal digits of a long escape, by the letter behind the backslash. -/
def escapeWidth? (c : Char) : Option Nat :=
  if c == 'x' then some 2 else if c == 'u' then some 4 else if c == 'U' then some 8 else none

/-- The character of an escape and the number of characters it takes, for the text behind the backslash. -/
def escaped? : List Char → Option (Char × Nat)
  | [] => none
  | c :: cs =>
    match shortEscapes.find? (·.1 == c) with
    | some (_, code) => some (Char.ofNat code, 1)
    | none => do
      let width ← escapeWidth? c
      let digits := cs.take width
      let code ← Decimal.digitsValue? 16 digits
      if digits.length == width && (code < 0xd800 || (0xdfff < code && code ≤ 0x10ffff)) then
        some (Char.ofNat code, width + 1)
      else none

/-- The end of a run of characters in quotes. -/
inductive QuotedEnd where
  /-- The closing quote. -/
  | closed
  /-- An escaped line end. -/
  | escapedBreak
  /-- A blank, a line end, or the end of the text. -/
  | gap
  deriving Repr, DecidableEq

/-- Read characters in quotes up to a blank, an escaped line end or the closing quote. The place is the one
behind the quote or the line end. -/
def quotedRun? (double : Bool) : Nat → Cursor → Option (List Char × QuotedEnd × Cursor)
  | 0, _ => none
  | fuel + 1, at_ =>
    match at_.rest with
    | [] => some ([], .gap, at_)
    | c :: cs =>
      let more (read : Char) (length : Nat) :=
        (quotedRun? double fuel (at_.skip length)).map fun (text, ending, place) =>
          (read :: text, ending, place)
      if isBreakOrBlank c then some ([], .gap, at_)
      else if double then
        if c == '"' then some ([], .closed, at_.skip 1)
        else if c == '\\' then
          if (cs.head?.map isBreak).getD false then some ([], .escapedBreak, (at_.skip 1).skipBreak)
          else (escaped? cs).bind fun (read, length) => more read (length + 1)
        else more c 1
      else if c == '\'' then
        if cs.head? == some '\'' then more '\'' 2 else some ([], .closed, at_.skip 1)
      else more c 1

/-- Read on in a quoted scalar behind the text `done`. -/
def scanQuotedFrom? (double : Bool) : Nat → List Char → Cursor → Option (List Char × Cursor)
  | 0, _, _ => none
  | fuel + 1, done, at_ =>
    if at_.isMarker || at_.rest.isEmpty then none
    else
      match quotedRun? double (at_.rest.length + 1) at_ with
      | none => none
      | some (run, .closed, place) => some (done ++ run, place)
      | some (run, ending, place) =>
        if ending == .escapedBreak && place.rest.head? == some '"' then some (done ++ run, place.skip 1)
        else
          (Gap.scan? 0 { escaped := ending == .escapedBreak } place).bind fun (gap, next) =>
            scanQuotedFrom? double fuel (done ++ run ++ gap.text) next

/-- Read a quoted scalar, whose opening quote stands at the place. -/
def scanQuoted? (double : Bool) (at_ : Cursor) : Option (List Char × Cursor) :=
  scanQuotedFrom? double (at_.rest.length + 1) [] (at_.skip 1)

/-! ## Block scalars -/

/-- What happens to the line ends at the end of a block. -/
inductive Chomping where
  /-- The first one stays. -/
  | clip
  /-- None stays. -/
  | strip
  /-- All stay. -/
  | keep
  deriving Repr, DecidableEq

/-- The mark of a chomping. -/
def chomping? (c : Char) : Option Chomping :=
  if c == '+' then some .keep else if c == '-' then some .strip else none

/-- The mark of an indentation, from one to nine. -/
def indentation? (c : Char) : Option Nat :=
  if '1' ≤ c && c ≤ '9' then some (c.toNat - '0'.toNat) else none

/-- The marks behind the bar of a block, at most one of each kind in any order, and their number. -/
def blockMarks (cs : List Char) : Chomping × Nat × Nat :=
  match cs with
  | [] => (.clip, 0, 0)
  | c :: rest =>
    let second := rest.head?
    match chomping? c, indentation? c with
    | some chomping, _ =>
      match second.bind indentation? with
      | some n => (chomping, n, 2)
      | none => (chomping, 0, 1)
    | none, some n =>
      match second.bind chomping? with
      | some chomping => (chomping, n, 2)
      | none => (.clip, n, 1)
    | none, none => (.clip, 0, 0)

/-- Lines of a block that hold nothing but spaces. -/
structure BlankLines where
  /-- The line ends. -/
  breaks : List Char
  /-- The largest column reached. -/
  widest : Nat
  /-- The place behind them and the spaces that follow. -/
  place : Cursor
  deriving Repr, DecidableEq

/-- Read blank lines and the indentation behind them, up to column `indent`, or to any column if that is
zero. A tab must not stand before that column. -/
def blankLines? (indent : Nat) (breaks : List Char) (widest line column : Nat) :
    List Char → Option BlankLines
  | [] => some ⟨breaks, max widest column, ⟨[], line, column⟩⟩
  | c :: cs =>
    let isIndentation := indent == 0 || column < indent
    if c == ' ' && isIndentation then blankLines? indent breaks widest line (column + 1) cs
    else if c == '\t' && isIndentation then none
    else if isBreak c then blankLines? indent (breaks ++ [c]) (max widest column) (line + 1) 0 cs
    else some ⟨breaks, max widest column, ⟨c :: cs, line, column⟩⟩

/-- What stands for the line end `leading` and the blank lines `trailing` between two lines of a block. In
a folded block a single line end between two lines that start with no blank becomes a space. -/
def blockJoint (folded afterBlank beforeBlank : Bool) (leading trailing : List Char) : List Char :=
  if folded && leading.head? == some '\n' && !afterBlank && !beforeBlank then
    if trailing.isEmpty then [' '] else trailing
  else leading ++ trailing

/-- Read on in a block behind the text `done`, the line end `leading` and blank lines. -/
def scanBlockFrom? (folded : Bool) (chomping : Chomping) (indent : Nat) :
    Nat → List Char → List Char → Bool → BlankLines → Option (List Char × Cursor)
  | 0, _, _, _, _ => none
  | fuel + 1, done, leading, afterBlank, blank =>
    let at_ := blank.place
    if at_.column == indent && !at_.rest.isEmpty then
      let beforeBlank := (at_.rest.head?.map isBlank).getD false
      let line := at_.takeWhile fun c => !isBreak c
      let lineEnd := at_.skipWhile fun c => !isBreak c
      let next := if lineEnd.rest.isEmpty then lineEnd else lineEnd.skipBreak
      let text := done ++ blockJoint folded afterBlank beforeBlank leading blank.breaks ++ line
      (blankLines? indent [] 0 next.line next.column next.rest).bind
        (scanBlockFrom? folded chomping indent fuel text (lineEnd.rest.take 1) beforeBlank)
    else
      let kept := match chomping with
        | .clip => leading
        | .strip => []
        | .keep => leading ++ blank.breaks
      some (done ++ kept, at_)

/-- Read a block scalar whose bar stands at the place, in a collection at column `outer`. Without a mark,
the first line that is not blank gives the indentation. -/
def scanBlock? (folded : Bool) (outer : Int) (at_ : Cursor) : Option (List Char × Cursor) :=
  let (chomping, marked, length) := blockMarks (at_.rest.drop 1)
  let header := (at_.skip (length + 1)).skipWhile isBlank
  let header := if header.rest.head? == some '#' then header.skipWhile fun c => !isBreak c else header
  if !(header.rest.head?.map isBreak).getD true then none
  else
    let start := if header.rest.isEmpty then header else header.skipBreak
    let given := if marked == 0 then 0 else (max outer 0).toNat + marked
    (blankLines? given [] 0 start.line start.column start.rest).bind fun blank =>
      let indent := if given == 0 then max (max blank.widest (outer + 1).toNat) 1 else given
      scanBlockFrom? folded chomping indent (start.rest.length + 1) [] [] false blank

end CommandDoc.Yaml
