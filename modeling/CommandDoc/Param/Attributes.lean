import CommandDoc.Param.AttributeBlock
import CommandDoc.Param.Candidate
import CommandDoc.Text.LetterCase

/-!
# Attributes

The attributes of a parameter stand in a block, separated by semicolons or commas. Some attributes take
the entries behind them as their own: further aliases after `aka:`, a fallback after an environment
variable.

Main definitions:

- `Attribute` with `Attribute.ofEntry`: one entry of a block, read by itself.
- `Attribute.apply` lays an attribute into a candidate, depending on the attribute before it.
- `readAttributes` reads a whole block.
-/

namespace CommandDoc

/-! ## One entry -/

/-- One entry of an attribute block. -/
inductive Attribute where
  /-- A value must be given. -/
  | required
  /-- Subcommands see the parameter too. -/
  | inherited
  /-- A command above declares the parameter. -/
  | fromParent
  /-- The function that reads the value; `none` if the reference is malformed. -/
  | parser (ref : Option FunctionRef)
  /-- The function that makes a value; `none` if the reference is malformed. -/
  | generator (ref : Option FunctionRef)
  /-- Further names, and an invitation to name more of them. -/
  | aka (names : List String)
  /-- The environment variable that gives the value, with the value taken when it is not set. -/
  | environment (variableName : String) (fallback : Option String)
  /-- The value taken when none is given. -/
  | defaultValue (value : String)
  /-- The value taken when an environment variable is not set. -/
  | fallback (value : String)
  /-- A single word, which means something only in a list of names. -/
  | word (names : List String)
  /-- Anything else, which means nothing. -/
  | other
  deriving Repr, DecidableEq

namespace Attribute

/-- The value behind a keyword, where ASCII letters of either case are the same. -/
def keywordValue? (keyword : String) (entry : List Char) : Option (List Char) :=
  (Text.afterWord? Char.toLower keyword.toList entry).map Text.trim

/-- The names in a text: its words without dashes in front, as far as anything is left of them. -/
def aliasNames (cs : List Char) : List String :=
  (((Text.words cs).map fun word => word.dropWhile (· == '-')).filter fun name => !name.isEmpty).map
    String.ofList

/-- The rest of a text that starts with blanks, behind them; `none` without a blank at the start. -/
def afterBlanks? (cs : List Char) : Option (List Char) :=
  match cs with
  | c :: _ => if Text.isBlank c then some (Text.trimStart cs) else none
  | [] => none

/-- A letter or underscore, where the long s and the kelvin sign count as letters. -/
def isVariableStart (c : Char) : Bool :=
  (Text.foldLetter c).isAlpha || c == '_'

/-- A letter, digit or underscore, where the long s and the kelvin sign count as letters. -/
def isVariableChar (c : Char) : Bool :=
  isVariableStart c || c.isDigit

/-- The value of `fallback:` behind the name of a variable: the rest of its line, which must not be empty
nor be followed by another line. -/
def environmentFallback? (cs : List Char) : Option (List Char) := do
  let value := Text.trimStart (← Text.afterWord? Text.foldLetter "fallback:".toList (← afterBlanks? cs))
  if value.isEmpty || value.contains '\n' then none else some value

/-- Read `default from environment NAME`, or `env` for short, with or without a fallback behind it. -/
def environment? (entry : List Char) : Option Attribute := do
  let afterDefault ← Text.afterWord? Text.foldLetter "default".toList entry
  let afterFrom ← Text.afterWord? Text.foldLetter "from".toList (← afterBlanks? afterDefault)
  let source ← afterBlanks? afterFrom
  let behind (word : String) := (Text.afterWord? Text.foldLetter word.toList source).bind afterBlanks?
  let text ← (behind "environment").or (behind "env")
  let name := text.takeWhile isVariableChar
  let rest := text.dropWhile isVariableChar
  match name with
  | [] => none
  | c :: _ =>
    if !isVariableStart c then none
    else if rest.isEmpty then some (.environment (String.ofList name) none)
    else do
      let value ← environmentFallback? rest
      some (.environment (String.ofList name) (some (String.ofList (Text.unquote value))))

/-- Whether an entry says `from parent`, with or without a colon. -/
def isFromParent (entry : List Char) : Bool :=
  match Text.afterWord? Text.foldLetter "from".toList entry with
  | none => false
  | some rest =>
    let parent := match rest with
      | ':' :: behind => behind
      | _ => rest
    Text.afterWord? Text.foldLetter "parent".toList (Text.trimStart parent) == some []

/-- Whether an entry can be one more name in a list of names. -/
def isWord (entry : List Char) : Bool :=
  !entry.contains ':' && !entry.any Text.isBlank

/-- Read an entry that starts with a keyword. -/
def keyword? (entry : List Char) : Option Attribute :=
  (((keywordValue? "parser:" entry).map fun value => parser (FunctionRef.ofChars? value)).or
  ((keywordValue? "generator:" entry).map fun value => generator (FunctionRef.ofChars? value))).or
  (((keywordValue? "aka:" entry).map fun value => aka (aliasNames value)).or
  ((environment? entry).or
  (((keywordValue? "default:" entry).map fun value => defaultValue (String.ofList (Text.unquote value))).or
  ((keywordValue? "fallback:" entry).map fun value => fallback (String.ofList (Text.unquote value))))))

/-- Read one entry, which is trimmed and not empty. -/
def ofEntry (entry : List Char) : Attribute :=
  let lower := Text.asciiLower entry
  if lower == "required".toList then required
  else if lower == "global".toList || lower == "inherited".toList then inherited
  else if isFromParent entry then fromParent
  else
    match keyword? entry with
    | some found => found
    | none => if isWord entry then word (aliasNames entry) else other

/-! ## Many entries -/

/-- What an entry can still belong to. -/
inductive Pending where
  /-- Nothing: an entry stands for itself. -/
  | nothing
  /-- A list of names. -/
  | names
  /-- An environment variable. -/
  | variableName
  deriving Repr, DecidableEq

/-- Lay an attribute into a candidate, and say what the next one can belong to. -/
def apply (candidate : Candidate) (pending : Pending) (found : Attribute) : Candidate × Pending :=
  match found with
  | required => ({ candidate with required := true }, .nothing)
  | inherited => ({ candidate with inherited := true }, .nothing)
  | fromParent => ({ candidate with fromParent := true }, .nothing)
  | parser ref => ({ candidate with parser := ref }, .nothing)
  | generator ref => ({ candidate with generator := ref }, .nothing)
  | aka names => ({ candidate with aliases := candidate.aliases ++ names }, .names)
  | environment variableName none => ({ candidate with envVar := some variableName }, .variableName)
  | environment variableName (some value) =>
    ({ candidate with envVar := some variableName, defaultValue := some value }, .variableName)
  | defaultValue value => ({ candidate with defaultValue := some value }, .nothing)
  | fallback value =>
    match pending with
    | .variableName => ({ candidate with defaultValue := some value }, .nothing)
    | _ => (candidate, .nothing)
  | word names =>
    match pending with
    | .names => ({ candidate with aliases := candidate.aliases ++ names }, .names)
    | _ => (candidate, .nothing)
  | other => (candidate, .nothing)

/-- Lay attributes into a candidate one after another. -/
def applyAll (candidate : Candidate) (pending : Pending) : List Attribute → Candidate
  | [] => candidate
  | found :: rest => applyAll (found.apply candidate pending).1 (found.apply candidate pending).2 rest

/-- The entries of a block: its parts between semicolons and commas, trimmed, without the empty ones. -/
def entries (block : List Char) : List (List Char) :=
  ((Text.splitTopLevel [';', ','] block).map Text.trim).filter fun entry => !entry.isEmpty

end Attribute

/-- Read a block of attributes into a candidate. -/
def readAttributes (block : List Char) (candidate : Candidate) : Candidate :=
  Attribute.applyAll candidate .nothing ((Attribute.entries block).map Attribute.ofEntry)

end CommandDoc
