import CommandDoc.Data.Basic
import CommandDoc.Decimal

/-!
# Reading JSON

Strict JSON text as a data tree: no comments, no trailing commas, no unescaped control characters, no text
behind the value. Lists and records can be nested at most 127 deep.

Main definitions:

- `Json.readNumber` and `Json.readLiteral` read the leaves.
- `Json.readValue` reads a tree and gives the text behind it.
- `Json.read?` reads a whole text.
-/

namespace CommandDoc.Json

/-- The blanks between the parts of a JSON text. -/
def isGap (c : Char) : Bool :=
  c == ' ' || c == '\n' || c == '\t' || c == '\r'

/-- Drop the blanks before the next part. -/
def skipGap (cs : List Char) : List Char :=
  cs.dropWhile isGap

/-! ## Strings -/

/-- The value of four hexadecimal digits at the start of a text, and the text behind them. -/
def hexQuad? : List Char → Option (Nat × List Char)
  | a :: b :: c :: d :: cs => (Decimal.digitsValue? 16 [a, b, c, d]).map fun value => (value, cs)
  | _ => none

/-- The character of an escaped code unit, with the second unit of a pair if it is the first of one. A unit
of a pair that stands alone is refused. -/
def readUnicode (cs : List Char) : Option (Char × List Char) := do
  let (unit, rest) ← hexQuad? cs
  if unit < 0xd800 || 0xdfff < unit then some (Char.ofNat unit, rest)
  else if 0xdc00 ≤ unit then none
  else
    match rest with
    | '\\' :: 'u' :: more =>
      let (low, behind) ← hexQuad? more
      if 0xdc00 ≤ low && low ≤ 0xdfff then
        some (Char.ofNat (0x10000 + (unit - 0xd800) * 0x400 + (low - 0xdc00)), behind)
      else none
    | _ => none

/-- The character of an escape, for the text behind its backslash. -/
def readEscape : List Char → Option (Char × List Char)
  | c :: cs =>
    if c == '"' || c == '\\' || c == '/' then some (c, cs)
    else if c == 'b' then some (Char.ofNat 0x8, cs)
    else if c == 'f' then some (Char.ofNat 0xc, cs)
    else if c == 'n' then some ('\n', cs)
    else if c == 'r' then some ('\r', cs)
    else if c == 't' then some ('\t', cs)
    else if c == 'u' then readUnicode cs
    else none
  | [] => none

/-- The text of a string literal behind its opening quote, and what follows the closing one. The fuel is
the number of characters at least. -/
def readLiteral : Nat → List Char → Option (List Char × List Char)
  | 0, _ => none
  | _, [] => none
  | fuel + 1, c :: cs =>
    if c == '"' then some ([], cs)
    else if c == '\\' then do
      let (d, rest) ← readEscape cs
      let (text, behind) ← readLiteral fuel rest
      some (d :: text, behind)
    else if c.toNat < 0x20 then none
    else do
      let (text, behind) ← readLiteral fuel cs
      some (c :: text, behind)

/-! ## Numbers -/

/-- The digits of an exponent with their sign, and the text behind them; zero without an exponent. -/
def readExponent (cs : List Char) : Option (Bool × List Char × List Char) :=
  match cs with
  | e :: rest =>
    if e == 'e' || e == 'E' then
      let (negative, more) := match rest with
        | '-' :: more => (true, more)
        | '+' :: more => (false, more)
        | _ => (false, rest)
      let digits := more.takeWhile Char.isDigit
      if digits.isEmpty then none else some (negative, digits, more.dropWhile Char.isDigit)
    else some (false, [], cs)
  | [] => some (false, [], [])

/-- The digits of a fraction, and the text behind them; none without a fraction. -/
def readFraction (cs : List Char) : Option (List Char × List Char) :=
  match cs with
  | '.' :: rest =>
    let digits := rest.takeWhile Char.isDigit
    if digits.isEmpty then none else some (digits, rest.dropWhile Char.isDigit)
  | _ => some ([], cs)

/-- The digits of the integer part, without superfluous zeros, and the text behind them. -/
def readInteger (cs : List Char) : Option (List Char × List Char) :=
  match cs.takeWhile Char.isDigit with
  | [] => none
  | ['0'] => some (['0'], cs.dropWhile Char.isDigit)
  | '0' :: _ => none
  | digits => some (digits, cs.dropWhile Char.isDigit)

/-- The value of a number's parts: an integer if there is neither a fraction nor an exponent and it fits
into 64 bits, else a decimal number, which must not be too large. -/
def numberValue? (negative : Bool) (whole fraction : List Char) (exponent : Option Int)
    (text : List Char) : Option Data :=
  let value := Decimal.natValue whole
  let isInteger := fraction.isEmpty && exponent.isNone
  if isInteger && !negative && value < Nat.pow 2 64 then some (.nat value)
  else if isInteger && negative && 0 < value && value ≤ Nat.pow 2 63 then some (.minus value)
  else if Decimal.isFiniteByFactors whole fraction (exponent.getD 0) then
    some (.decimal (String.ofList text))
  else none

/-- A number at the start of a text, and the text behind it. -/
def readNumber (cs : List Char) : Option (Data × List Char) := do
  let (negative, unsigned) := match cs with
    | '-' :: rest => (true, rest)
    | _ => (false, cs)
  let (whole, afterWhole) ← readInteger unsigned
  let (fraction, afterFraction) ← readFraction afterWhole
  let (below, digits, rest) ← readExponent afterFraction
  let exponent := if digits.isEmpty then none else some (Decimal.exponentOf below digits)
  let value ← numberValue? negative whole fraction exponent (cs.take (cs.length - rest.length))
  some (value, rest)

/-! ## Trees -/

/-- The text behind a word at its start. -/
def afterWord? (word cs : List Char) : Option (List Char) :=
  if word.isPrefixOf cs then some (cs.drop word.length) else none

mutual

/-- A value at the start of a text, and the text behind it. `depth` counts how many lists and records can
still be opened; the fuel is two more than twice the number of characters at least. -/
def readValue (fuel depth : Nat) (cs : List Char) : Option (Data × List Char) :=
  match fuel with
  | 0 => none
  | fuel + 1 =>
    match skipGap cs with
    | [] => none
    | c :: rest =>
      if c == '"' then do
        let (text, behind) ← readLiteral fuel rest
        some (.text (String.ofList text), behind)
      else if c == '[' then
        match depth with
        | 0 => none
        | depth + 1 =>
          match skipGap rest with
          | ']' :: behind => some (.list [], behind)
          | _ => (readItems fuel depth rest).map fun (items, behind) => (.list items, behind)
      else if c == '\x7b' then
        match depth with
        | 0 => none
        | depth + 1 =>
          match skipGap rest with
          | '\x7d' :: behind => some (.record [], behind)
          | _ => (readFields fuel depth rest).map fun (fields, behind) => (.record fields, behind)
      else if c == 't' then (afterWord? "rue".toList rest).map fun behind => (.bool true, behind)
      else if c == 'f' then (afterWord? "alse".toList rest).map fun behind => (.bool false, behind)
      else if c == 'n' then (afterWord? "ull".toList rest).map fun behind => (.null, behind)
      else readNumber (c :: rest)

/-- The elements of a list up to its closing bracket. -/
def readItems (fuel depth : Nat) (cs : List Char) : Option (List Data × List Char) :=
  match fuel with
  | 0 => none
  | fuel + 1 => do
    let (item, rest) ← readValue fuel depth cs
    match skipGap rest with
    | ',' :: more => do
      let (items, behind) ← readItems fuel depth more
      some (item :: items, behind)
    | ']' :: behind => some ([item], behind)
    | _ => none

/-- The fields of a record up to its closing brace. -/
def readFields (fuel depth : Nat) (cs : List Char) : Option (List (Key × Data) × List Char) :=
  match fuel with
  | 0 => none
  | fuel + 1 =>
    match skipGap cs with
    | '"' :: rest => do
      let (key, afterKey) ← readLiteral fuel rest
      match skipGap afterKey with
      | ':' :: afterColon => do
        let (value, afterValue) ← readValue fuel depth afterColon
        let entry := (Key.name (String.ofList key), value)
        match skipGap afterValue with
        | ',' :: more => do
          let (fields, behind) ← readFields fuel depth more
          some (entry :: fields, behind)
        | '\x7d' :: behind => some ([entry], behind)
        | _ => none
      | _ => none
    | _ => none

end

/-- Read a whole text as one value. -/
def read? (text : String) : Option Data := do
  let cs := text.toList
  let (value, rest) ← readValue (2 * cs.length + 2) 127 cs
  if (skipGap rest).isEmpty then some value else none

end CommandDoc.Json
