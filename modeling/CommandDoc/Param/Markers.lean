import CommandDoc.Decimal
import CommandDoc.Text.Blank
import CommandDoc.Text.LetterCase
import CommandDoc.Text.Occurrence
import CommandDoc.Text.WordChar

/-!
# Markers in the text about a parameter

Besides words, the text about a parameter can hold markers: `@2` for a position, `1...3` for a number of
arguments, `--name` for a flag. Each marker is a pattern; the leftovers of markers, empty brackets and
repeated commas, are patterns too.

Main definitions:

- `position`, `repetition` and `flag`: the markers.
- `emptyBrackets` and `repeatedCommas`: what markers leave behind.
- `hasArgumentMarker`: whether a text makes its parameter an argument.
-/

namespace CommandDoc.Marker

open Text

/-! ## Markers -/

/-- The number that ASCII digits write, if it is below 2³². -/
def number? (digits : List Char) : Option UInt32 :=
  match Decimal.digitsValue? 10 digits with
  | some n => if n < 4294967296 then some (UInt32.ofNat n) else none
  | none => none

/-- A pattern at the start of a text or behind one blank, which belongs to the occurrence. -/
def afterBlank {α : Type} (inner : List Char → Option (α × Nat)) : Pattern α := fun before cs =>
  match (if before.isNone then inner cs else none) with
  | some found => some found
  | none =>
    match cs with
    | c :: rest => if isBlank c then (inner rest).map fun (found, length) => (found, length + 1) else none
    | [] => none

/-- Digits behind an at sign, where a word ends behind the digits. -/
def positionDigits : List Char → Option (List Char × Nat)
  | '@' :: cs =>
    let digits := cs.takeWhile isDecimalDigit
    let ends := match cs.dropWhile isDecimalDigit with
      | [] => true
      | c :: _ => !isWordChar c
    if !digits.isEmpty && ends then some (digits, digits.length + 1) else none
  | _ => none

/-- The marker of a position, such as `@2`; it finds the digits. -/
def position : Pattern (List Char) :=
  afterBlank positionDigits

/-- Three dots with digits before and behind them, up to a blank or the end of the text. -/
def repetitionBounds (cs : List Char) : Option ((List Char × List Char) × Nat) :=
  let least := cs.takeWhile isDecimalDigit
  match cs.dropWhile isDecimalDigit with
  | '.' :: '.' :: '.' :: rest =>
    let greatest := rest.takeWhile isDecimalDigit
    let length := least.length + 3 + greatest.length
    match rest.dropWhile isDecimalDigit with
    | [] => some ((least, greatest), length)
    | c :: _ => if isBlank c then some ((least, greatest), length + 1) else none
  | _ => none

/-- The marker of a number of arguments, such as `1...3`; it finds the digits of both bounds. -/
def repetition : Pattern (List Char × List Char) :=
  afterBlank repetitionBounds

/-- Characters that a flag can follow. -/
def isFlagLead (c : Char) : Bool :=
  isBlank c || c == ',' || c == '(' || c == '[' || c == '|' || c == '/'

/-- The characters of a flag behind its dashes: a letter or digit of ASCII, then word characters and
dashes. -/
def flagName? : List Char → Option (List Char)
  | c :: cs => if c.isAlphanum then some (c :: cs.takeWhile fun d => isWordChar d || d == '-') else none
  | [] => none

/-- One or two dashes and a flag's name. -/
def dashedName : List Char → Option (List Char × Nat)
  | '-' :: '-' :: cs => (flagName? cs).map fun name => (name, name.length + 2)
  | '-' :: cs => (flagName? cs).map fun name => (name, name.length + 1)
  | _ => none

/-- The marker of a flag, such as `--name` or `-n`, at the start of a text or behind one of the characters
that a flag can follow; it finds that character and the name. -/
def flag : Pattern (Option Char × List Char) := fun before cs =>
  match (if before.isNone then dashedName cs else none) with
  | some (name, length) => some ((none, name), length)
  | none =>
    match cs with
    | c :: rest =>
      if isFlagLead c then (dashedName rest).map fun (name, length) => ((some c, name), length + 1)
      else none
    | [] => none

/-! ## Leftovers -/

/-- Brackets of one kind with nothing between them but blanks and at most one comma or semicolon. -/
def emptyBetween (opening closing : Char) : List Char → Option Nat
  | c :: cs =>
    if c != opening then none
    else
      let gap := cs.takeWhile isBlank
      let rest := cs.dropWhile isBlank
      let (inner, tail) := match rest with
        | d :: ds => if d == ',' || d == ';' then (1 + (ds.takeWhile isBlank).length, ds.dropWhile isBlank)
          else (0, rest)
        | [] => (0, [])
      if tail.head? == some closing then some (1 + gap.length + inner + 1) else none
  | [] => none

/-- Empty parentheses or square brackets. -/
def emptyBrackets : Pattern Unit := fun _ cs =>
  ((emptyBetween '(' ')' cs).or (emptyBetween '[' ']' cs)).map fun length => ((), length)

/-- The length of the longest run of commas with blanks before each of them, and their number. -/
def commaRun : Nat → List Char → Nat × Nat
  | gap, c :: cs =>
    if c == ',' then
      let (length, count) := commaRun 0 cs
      (gap + 1 + length, count + 1)
    else if isBlank c then commaRun (gap + 1) cs
    else (0, 0)
  | _, [] => (0, 0)

/-- Two or more commas with nothing but blanks before and between them. -/
def repeatedCommas : Pattern Unit := fun _ cs =>
  let (length, count) := commaRun 0 cs
  if 2 ≤ count then some ((), length) else none

/-! ## Arguments -/

/-- Whether a text holds a marker that makes its parameter an argument. -/
def hasArgumentMarker (cs : List Char) : Bool :=
  occursIn position cs || occursIn repetition cs

end CommandDoc.Marker
