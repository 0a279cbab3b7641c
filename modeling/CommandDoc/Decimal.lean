/-!
# Decimal numbers

Reading rows of digits, and the one question that is asked about decimal numbers: whether they are too
large for a double.

Main definitions:

- `digitValue?` and `digitsValue?`: digits of a base up to sixteen.
- `isFinite`: whether a decimal number has a finite double next to it.
- `isFiniteByFactors`: whether it also is finite as the product of two doubles.
-/

namespace CommandDoc.Decimal

/-- The value of a digit: letters of either case follow the nine. -/
def digitValue? (c : Char) : Option Nat :=
  if '0' ≤ c && c ≤ '9' then some (c.toNat - 48)
  else if 'a' ≤ c && c ≤ 'f' then some (c.toNat - 87)
  else if 'A' ≤ c && c ≤ 'F' then some (c.toNat - 55)
  else none

/-- The value of a row of digits in a base, behind digits of value `value`. -/
def digitsFrom? (base value : Nat) : List Char → Option Nat
  | [] => some value
  | c :: cs =>
    match digitValue? c with
    | some d => if d < base then digitsFrom? base (value * base + d) cs else none
    | none => none

/-- The value of a row of digits in a base; there has to be one at least. -/
def digitsValue? (base : Nat) (cs : List Char) : Option Nat :=
  if cs.isEmpty then none else digitsFrom? base 0 cs

/-- The value of decimal digits; no digits are zero. -/
def natValue (cs : List Char) : Nat :=
  (digitsFrom? 10 0 cs).getD 0

/-- An exponent of ten. Beyond a million every exponent is as large as any other. -/
def exponentOf (negative : Bool) (digits : List Char) : Int :=
  let size : Int := min (natValue digits) 1000000
  if negative then -size else size

/-! ## Limits of a double -/

/-- The least number that is rounded to infinity: 2¹⁰²⁴ less half the last step. -/
def overflow : Nat :=
  Nat.pow 2 1024 - Nat.pow 2 970

/-- Whether `digits` · 10^`exponent` has a finite double next to it. -/
def isFinite (digits : List Char) (exponent : Int) : Bool :=
  let value := natValue digits
  let magnitude : Int := (toString value).length + exponent
  if value == 0 || magnitude < 300 then true
  else if 320 < magnitude then false
  else
    match exponent with
    | .ofNat n => value * Nat.pow 10 n < overflow
    | .negSucc n => value < overflow * Nat.pow 10 (n + 1)

/-- The number of 53 significant bits next to `n`; of two that are equally near, the even one. -/
def roundToDouble (n : Nat) : Nat :=
  let step := Nat.pow 2 (Nat.log2 n - 52)
  let below := n / step
  let rest := 2 * (n % step)
  let isBelow := rest < step || rest == step && below % 2 == 0
  (if isBelow then below else below + 1) * step

/-- The value of decimal digits behind digits of value `value`, up to the first with which it would not fit
into 64 bits, and the digits from there on. -/
def wordFrom (value : Nat) : List Char → Nat × List Char
  | [] => (value, [])
  | c :: cs =>
    let next := value * 10 + (c.toNat - 48)
    if next < Nat.pow 2 64 then wordFrom next cs else (value, c :: cs)

/-- Whether `whole`.`fraction` · 10^`exponent` is finite if it is found as a product: of the digits that fit
into 64 bits, and of a power of ten, both rounded to a double. Digits of the integer part that do not fit
count for the power, and those of the fraction are dropped. -/
def isFiniteByFactors (whole fraction : List Char) (exponent : Int) : Bool :=
  let (upper, excess) := wordFrom 0 whole
  let (significand, dropped) := wordFrom upper fraction
  let taken := fraction.length - dropped.length
  match exponent + excess.length - taken with
  | .negSucc _ => true
  | .ofNat n =>
    significand == 0 || n ≤ 308 && roundToDouble significand * roundToDouble (Nat.pow 10 n) < overflow

end CommandDoc.Decimal
