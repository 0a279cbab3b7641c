import CommandDoc.Ordered

/-!
# Arguments of a command line

Arguments are words. A word that starts with a dash names options, and others are values of the option
before them or stand alone. Two dashes make all later words stand alone.

Main definitions:

- `Choice` and `Arguments`.
- `Arguments.ofWords?`: read words by the options there are.
-/

namespace CommandDoc

/-- How many values an option takes. -/
inductive Arity where
  /-- None. -/
  | none
  /-- One. -/
  | one
  /-- One or more; the option can be repeated. -/
  | many
  deriving Repr, DecidableEq

/-- An option that can be given. -/
structure Choice where
  /-- Its name, which stands behind two dashes. -/
  name : String
  /-- How many values it takes. -/
  arity : Arity
  /-- A letter for it, which stands behind one dash. -/
  letter : Option Char := .none
  deriving Repr, DecidableEq

/-- The arguments of a command line. -/
structure Arguments where
  /-- The words that stand alone. -/
  alone : List String := []
  /-- The names of the options given and their values, in order. -/
  given : List (String × List String) := []
  deriving Repr, DecidableEq

/-! ## Words -/

/-- What a word of a command line is. -/
inductive Word where
  /-- Two dashes. -/
  | separator
  /-- The name of an option, and a value behind an equals sign. -/
  | named (name : String) (value : Option String)
  /-- Letters of options. -/
  | letters (cs : List Char)
  /-- A value or a word that stands alone. -/
  | plain
  deriving Repr, DecidableEq

/-- What a word is. A single dash is a plain word. -/
def Word.ofText (text : String) : Word :=
  match text.toList with
  | ['-', '-'] => separator
  | '-' :: '-' :: cs =>
    let name := String.ofList (cs.takeWhile (· != '='))
    match cs.dropWhile (· != '=') with
    | _ :: value => named name (some (String.ofList value))
    | [] => named name none
  | '-' :: c :: cs => letters (c :: cs)
  | _ => plain

namespace Arguments

/-! ## Reading words -/

/-- Note the use of an option. -/
def use (arguments : Arguments) (name : String) (values : List String) : Arguments :=
  { arguments with given := arguments.given ++ [(name, values)] }

/-- End the option that waits for values; it must have got one. -/
def close? (arguments : Arguments) : Option (Choice × List String) → Option Arguments
  | none => some arguments
  | some (_, []) => none
  | some (choice, values) => some (arguments.use choice.name values)

/-- The option without values that a letter stands for. -/
def byLetter? (choices : List Choice) (c : Char) : Option Choice :=
  choices.find? fun choice => choice.letter == some c && choice.arity == .none

/-- Read on behind some arguments, of which the last can wait for values. -/
def readFrom? (choices : List Choice) (arguments : Arguments) (waiting : Option (Choice × List String)) :
    List String → Option Arguments
  | [] => arguments.close? waiting
  | text :: rest =>
    match Word.ofText text with
    | .separator =>
      (arguments.close? waiting).map fun closed => { closed with alone := closed.alone ++ rest }
    | .named name value => do
      let closed ← arguments.close? waiting
      let choice ← choices.find? (·.name == name)
      match choice.arity, value with
      | .none, none => readFrom? choices (closed.use name []) none rest
      | .none, some _ => none
      | _, some v => readFrom? choices (closed.use name [v]) none rest
      | _, none => readFrom? choices closed (some (choice, [])) rest
    | .letters cs => do
      let closed ← arguments.close? waiting
      let used ← cs.mapM (byLetter? choices)
      readFrom? choices (used.foldl (fun done choice => done.use choice.name []) closed) none rest
    | .plain =>
      match waiting with
      | none => readFrom? choices { arguments with alone := arguments.alone ++ [text] } none rest
      | some (choice, values) =>
        if choice.arity == .one then readFrom? choices (arguments.use choice.name [text]) none rest
        else readFrom? choices arguments (some (choice, values ++ [text])) rest

/-- Whether an option is given no more often than it can be. -/
def isWithin (arguments : Arguments) (choice : Choice) : Bool :=
  choice.arity == .many || (arguments.given.filter (·.1 == choice.name)).length ≤ 1

/-- Read the words of a command line by the options there are. -/
def ofWords? (choices : List Choice) (texts : List String) : Option Arguments :=
  (readFrom? choices {} none texts).filter fun arguments => choices.all arguments.isWithin

/-! ## Looking up options -/

/-- Whether an option is given. -/
def has (arguments : Arguments) (name : String) : Bool :=
  arguments.given.any (·.1 == name)

/-- All values of an option. -/
def values (arguments : Arguments) (name : String) : List String :=
  (arguments.given.filter (·.1 == name)).flatMap Prod.snd

/-- The first value of an option. -/
def value? (arguments : Arguments) (name : String) : Option String :=
  (arguments.values name).head?

end Arguments

end CommandDoc
