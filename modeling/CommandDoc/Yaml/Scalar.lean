import CommandDoc.Decimal
import CommandDoc.Text.LetterCase

/-!
# Plain scalars

What a scalar without quotes stands for: nothing, a truth value, a number, or its own text. Numbers have
to be told apart from texts when they are read, and texts that look like numbers when they are written.

Main definitions:

- `Scalar` and `Scalar.ofPlain`.
- `Scalar.integer?` and `Scalar.isDecimal`: the spellings of numbers.
-/

namespace CommandDoc.Yaml

/-- What a plain scalar stands for. -/
inductive Scalar where
  /-- Nothing. -/
  | null
  /-- A truth value. -/
  | bool (b : Bool)
  /-- A natural number of at most 64 bits. -/
  | nat (n : Nat)
  /-- A number with a minus sign that fits into 64 bits, by its absolute value. -/
  | minus (n : Nat)
  /-- An integer beyond 64 bits that fits into 128. -/
  | wide
  /-- Any other finite number, or one of the spellings of infinity and of no number. -/
  | decimal
  /-- A text. -/
  | text
  deriving Repr, DecidableEq

namespace Scalar

/-! ## Words -/

/-- The spellings of nothing. -/
def nullWords : List String := ["", "null", "Null", "NULL", "~"]

/-- The spellings of truth. -/
def trueWords : List String := ["true", "True", "TRUE"]

/-- The spellings of falsehood. -/
def falseWords : List String := ["false", "False", "FALSE"]

/-- The truth value of a word. -/
def boolOf? (word : String) : Option Bool :=
  if trueWords.contains word then some true
  else if falseWords.contains word then some false
  else none

/-- The spellings of infinity and of no number. -/
def nonfiniteWords : List String :=
  [".inf", ".Inf", ".INF", "+.inf", "+.Inf", "+.INF", "-.inf", "-.Inf", "-.INF", ".nan", ".NaN", ".NAN"]

/-! ## Integers -/

/-- A text without one sign at its start. -/
def dropSign : List Char → List Char
  | '+' :: cs => cs
  | '-' :: cs => cs
  | cs => cs

/-- Whether a text consists of more than one digit, the first of them zero, behind an optional sign. Such
a text is no number. -/
def isZeroPadded (cs : List Char) : Bool :=
  match dropSign cs with
  | '0' :: rest => !rest.isEmpty && rest.all Char.isDigit
  | _ => false

/-- The value of digits behind the mark of their base, or else of decimal digits. -/
def magnitude? (cs : List Char) : Option Nat :=
  match cs with
  | '0' :: 'x' :: rest => Decimal.digitsValue? 16 rest
  | '0' :: 'o' :: rest => Decimal.digitsValue? 8 rest
  | '0' :: 'b' :: rest => Decimal.digitsValue? 2 rest
  | _ => Decimal.digitsValue? 10 cs

/-- An integer, as its sign and its absolute value. -/
def integer? (cs : List Char) : Option (Bool × Nat) :=
  if isZeroPadded cs then none
  else
    match cs with
    | '-' :: rest => (magnitude? rest).map fun n => (true, n)
    | '+' :: rest => (magnitude? rest).map fun n => (false, n)
    | _ => (magnitude? cs).map fun n => (false, n)

/-! ## Decimal numbers -/

/-- The sign and the digits of an exponent that fills a text. -/
def exponent? (cs : List Char) : Option Int :=
  match cs with
  | [] => some 0
  | e :: rest =>
    if e == 'e' || e == 'E' then
      let digits := dropSign rest
      if !digits.isEmpty && digits.all Char.isDigit then
        some (Decimal.exponentOf (rest.head? == some '-') digits)
      else none
    else none

/-- Whether a text is a decimal number with a finite double next to it: digits with at most one point, and
an exponent, behind an optional sign. -/
def isDecimal (cs : List Char) : Bool :=
  let unsigned := dropSign cs
  let whole := unsigned.takeWhile Char.isDigit
  let afterWhole := unsigned.dropWhile Char.isDigit
  let (fraction, rest) := match afterWhole with
    | '.' :: more => (more.takeWhile Char.isDigit, more.dropWhile Char.isDigit)
    | _ => ([], afterWhole)
  match exponent? rest with
  | some exponent =>
    !(whole ++ fraction).isEmpty && Decimal.isFinite (whole ++ fraction) (exponent - fraction.length)
  | none => false

/-! ## All scalars -/

/-- What an integer is read as, if it fits. -/
def ofInteger? (negative : Bool) (n : Nat) : Option Scalar :=
  if negative then
    if n ≤ Nat.pow 2 63 then some (minus n) else if n ≤ Nat.pow 2 127 then some wide else none
  else if n < Nat.pow 2 64 then some (nat n)
  else if n < Nat.pow 2 128 then some wide
  else none

/-- What a plain scalar stands for. -/
def ofPlain (word : String) : Scalar :=
  if nullWords.contains word then null
  else
    match boolOf? word with
    | some b => bool b
    | none =>
      match (integer? word.toList).bind fun (negative, n) => ofInteger? negative n with
      | some number => number
      | none =>
        if isZeroPadded word.toList then text
        else if nonfiniteWords.contains word || isDecimal word.toList then decimal
        else text

end Scalar

end CommandDoc.Yaml
