import CommandDoc.Name.Flag
import CommandDoc.Param.Attributes
import CommandDoc.Param.Markers

/-!
# The text about a parameter

One text says everything that a comment knows about a parameter: an attribute block, a default value,
markers for position, repetition and flags, and the description that remains when they are taken out.

Main definitions:

- `InlineDefault.find?` finds `default: value` in a text.
- `cleanDescription` tidies what remains.
- `Candidate.ofText` reads a text.
-/

namespace CommandDoc

open Text

/-! ## The default value -/

/-- A default value inside a text. -/
structure InlineDefault where
  /-- The text before the keyword. -/
  before : List Char
  /-- The value, without quotes around it. -/
  value : List Char
  /-- The text behind the value. -/
  behind : List Char
  deriving Repr, DecidableEq

namespace InlineDefault

/-- The text before and behind the first `default:` that no word character precedes. -/
def splitKeyword? (previous : Option Char) : List Char → Option (List Char × List Char)
  | [] => none
  | c :: cs =>
    let found :=
      if (previous.map isWordChar).getD false then none
      else afterWord? foldLetter "default:".toList (c :: cs)
    match found with
    | some rest => some ([], rest)
    | none => (splitKeyword? (some c) cs).map fun (before, rest) => (c :: before, rest)

/-- Behind an opening quote: the characters up to the closing quote, that quote included, and the rest. A
text without a closing quote is quoted to its end. -/
def splitQuote (escaped : Bool) : List Char → List Char × List Char
  | [] => ([], [])
  | c :: cs =>
    if !escaped && c == '"' then (['"'], cs)
    else
      let (inside, rest) := splitQuote (!escaped && c == '\\') cs
      (c :: inside, rest)

/-- A value without quotes: it ends before a blank, comma or semicolon outside its own parentheses, or
before a parenthesis that closes one opened earlier. -/
def splitBare (depth : Nat) : List Char → List Char × List Char
  | [] => ([], [])
  | c :: cs =>
    if depth == 0 && (c == ')' || c == ',' || c == ';' || isBlank c) then ([], c :: cs)
    else
      let deeper := if c == '(' then depth + 1 else if c == ')' then depth - 1 else depth
      let (value, rest) := splitBare deeper cs
      (c :: value, rest)

/-- A value as it is written, quotes included, and what follows it. -/
def splitValue : List Char → List Char × List Char
  | '"' :: cs => ('"' :: (splitQuote false cs).1, (splitQuote false cs).2)
  | cs => splitBare 0 cs

/-- The default value in a text; an empty one does not count. -/
def find? (cs : List Char) : Option InlineDefault := do
  let (before, rest) ← splitKeyword? none cs
  let (written, behind) := splitValue (trimStart rest)
  let value := unquote written
  if value.isEmpty then none else some ⟨before, value, behind⟩

end InlineDefault

/-! ## The description -/

/-- Drop each space that a comma follows. -/
def closeCommas : List Char → List Char
  | ' ' :: ',' :: cs => ',' :: closeCommas cs
  | c :: cs => c :: closeCommas cs
  | [] => []

/-- Punctuation that cannot start a description. -/
def isLeadingDebris (c : Char) : Bool :=
  isBlank c || c == ',' || c == ';' || c == ':' || c == '|' || c == '/' || c == '-'

/-- Punctuation that cannot end a description. -/
def isTrailingDebris (c : Char) : Bool :=
  isBlank c || c == ',' || c == ';' || c == '|' || c == '/'

/-- Tidy what remains of a text: empty brackets and repeated commas go, blanks are collapsed, and loose
punctuation at the ends is dropped. -/
def cleanDescription (cs : List Char) : List Char :=
  let unbracketed := replaceEach Marker.emptyBrackets (fun _ => [' ']) cs
  let commas := replaceEach Marker.repeatedCommas (fun _ => [',']) unbracketed
  dropTail isTrailingDebris ((closeCommas (collapse commas)).dropWhile isLeadingDebris)

/-! ## The whole text -/

namespace Candidate

/-- Read the first position marker; a position of zero, or one that is too large, is none. -/
def withPosition (candidate : Candidate) (cs : List Char) : Candidate :=
  match (firstFound? Marker.position cs).bind Marker.number? with
  | some n => if n == 0 then candidate else { candidate with positional := true, position := some n }
  | none => candidate

/-- Read the first repetition marker; a missing bound, or one that is too large, is no bound. -/
def withRepetition (candidate : Candidate) (cs : List Char) : Candidate :=
  match firstFound? Marker.repetition cs with
  | some (least, greatest) =>
    { candidate with
      vararg := true
      positional := true
      varMin := (Marker.number? least).getD 0
      varMax := (Marker.number? greatest).getD 0 }
  | none => candidate

/-- Read every flag marker. -/
def withFlags (candidate : Candidate) (cs : List Char) : Candidate :=
  { candidate with
    flags := candidate.flags ++ (allFound Marker.flag cs).map fun (_, name) => String.ofList name }

/-- Read the default value, unless one is known already; it is taken out of the text in either case. -/
def withDefault (candidate : Candidate) (cs : List Char) : Candidate × List Char :=
  match InlineDefault.find? cs with
  | some found =>
    ({ candidate with defaultValue := candidate.defaultValue.or (some (String.ofList found.value)) },
      found.before ++ ' ' :: found.behind)
  | none => (candidate, cs)

/-- Read the default value and the markers of a text outside its attribute block. What remains is the
description, unless there is one already. -/
def readInline (candidate : Candidate) (cs : List Char) : Candidate :=
  let (candidate, unvalued) := candidate.withDefault cs
  let candidate := candidate.withPosition unvalued
  let unplaced := replaceEach Marker.position (fun _ => [' ']) unvalued
  let candidate := candidate.withRepetition unplaced
  let unrepeated := replaceEach Marker.repetition (fun _ => [' ']) unplaced
  let candidate := candidate.withFlags unrepeated
  let unflagged := replaceEach Marker.flag (fun found => found.1.toList) unrepeated
  let description := cleanDescription unflagged
  { candidate with
    flags := canonicalFlags candidate.flags
    description :=
      candidate.description.or (if description.isEmpty then none else some (String.ofList description)) }

/-- Read everything a text says about a parameter. -/
def ofChars (cs : List Char) : Candidate :=
  match AttributeBlock.ofText? cs with
  | some block => readInline (readAttributes block.content {}) block.remainder
  | none => readInline {} (trim cs)

/-- `ofChars` on a string. -/
def ofText (text : String) : Candidate :=
  ofChars text.toList

end Candidate

end CommandDoc
