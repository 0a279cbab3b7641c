import CommandDoc.Text.Blank
import CommandDoc.Text.LetterCase

/-!
# Kebab case

A parameter without a flag name of its own is reached by its identifier in kebab case: lower case words
with dashes between them.

Main definitions:

- `kebab` reads an identifier from left to right; `kebabDash` says where it puts a dash.
-/

namespace CommandDoc

/-- Characters that only separate words. -/
def isWordGap (c : Char) : Bool :=
  c == '_' || c == '-' || Text.isBlank c

/-- Whether a new word starts with `c`: it is upper case and stands behind a lower case letter or a digit,
or it is the last capital of a run that lower case follows. -/
def startsWord (before : Option Char) (c : Char) (rest : List Char) : Bool :=
  match before with
  | none => false
  | some b =>
    Text.isUpper c
      && (Text.isLower b || b.isDigit || (Text.isUpper b && (rest.head?.map Text.isLower).getD false))

/-- A dash behind the reversed text `out`, unless it is empty or ends with one. -/
def kebabDash : List Char → List Char
  | [] => []
  | '-' :: out => '-' :: out
  | c :: out => '-' :: c :: out

/-- Walk over an identifier with the character before and the reversed text so far. -/
def kebabFrom (before : Option Char) (out : List Char) : List Char → List Char
  | [] => out
  | c :: cs =>
    if isWordGap c then kebabFrom (some c) (kebabDash out) cs
    else
      let opened := if startsWord before c cs then kebabDash out else out
      kebabFrom (some c) ((Text.toLower c).reverse ++ opened) cs

/-- An identifier in kebab case. -/
def kebab (name : String) : String :=
  String.ofList ((kebabFrom none [] name.toList).dropWhile (· == '-')).reverse

end CommandDoc
