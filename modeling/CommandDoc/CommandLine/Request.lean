import CommandDoc.CommandLine.Arguments
import CommandDoc.Decimal
import CommandDoc.Files.Declarations
import CommandDoc.View.Format

/-!
# What a command line asks for

Main definitions:

- `Request` and the records of its options.
- `Request.ofWords?` reads a command line.
- `Request.paths`: the paths that an answer can hang on.
-/

namespace CommandDoc

/-- What models are built from. -/
structure Sources where
  /-- Paths of declaration files and of folders of them. -/
  inputs : List Path
  /-- The settings file to use in place of one next to the inputs. -/
  settings : Option Path := none
  deriving Repr, DecidableEq

/-- What a command line asks for. -/
inductive Request where
  /-- Build a model and show it, or write it into a file. -/
  | build (sources : Sources) (output : Option Path) (format : Format) (strict : Bool) (jobs : Option Nat)
  /-- Build a model and report about it, in short if no format is given. -/
  | check (sources : Sources) (format : Option Format)
  /-- Show how a command or subcommand is used. -/
  | usage (sources : Sources) (command : String) (path : List String)
  /-- Read a comment from a file or from the standard input and show what it declares. -/
  | comment (input : Option Path)
  deriving Repr, DecidableEq

namespace Request

/-! ## Options -/

/-- Ask for a log. It has no effect on an answer, so that nothing is kept of it. -/
def verbose : Choice :=
  { name := "verbose", arity := .none, letter := some 'v' }

/-- The options for building and showing a model. -/
def buildChoices : List Choice :=
  [verbose, { name := "output", arity := .one }, { name := "format", arity := .one },
    { name := "config", arity := .one }, { name := "strict", arity := .none },
    { name := "jobs", arity := .one }]

/-- The options for a report. -/
def checkChoices : List Choice :=
  [verbose, { name := "format", arity := .one }, { name := "config", arity := .one }]

/-- The options for showing how a command is used. -/
def usageChoices : List Choice :=
  [verbose, { name := "command", arity := .one }, { name := "path", arity := .many },
    { name := "config", arity := .one }]

/-- The options for reading a comment. -/
def commentChoices : List Choice :=
  [verbose, { name := "input", arity := .one }]

/-! ## Values of options -/

/-- A path, which must not be empty. -/
def pathOf? (text : String) : Option Path :=
  if text.isEmpty then none else some ⟨text⟩

/-- A count of at most 64 bits, in decimal digits behind an optional plus sign. -/
def countOf? (text : String) : Option Nat :=
  let digits := match text.toList with
    | '+' :: cs => cs
    | cs => cs
  (Decimal.digitsValue? 10 digits).filter (· < Nat.pow 2 64)

/-- A value that can be missing, but must be of a kind if it is there. -/
def optional? {α : Type} (read : String → Option α) : Option String → Option (Option α)
  | none => some none
  | some text => (read text).map some

/-- The sources of a command line, which must name an input. -/
def sources? (arguments : Arguments) : Option Sources := do
  if arguments.alone.isEmpty then none
  let inputs ← arguments.alone.mapM pathOf?
  let settings ← optional? pathOf? (arguments.value? "config")
  return { inputs, settings }

/-! ## Command lines -/

/-- Read the words behind the name of what is asked for. -/
def ofName? (name : String) (texts : List String) : Option Request :=
  if name == "build" then do
    let arguments ← Arguments.ofWords? buildChoices texts
    let format ← optional? Format.ofName? (arguments.value? "format")
    return .build (← sources? arguments) (← optional? pathOf? (arguments.value? "output"))
      (format.getD .json) (arguments.has "strict") (← optional? countOf? (arguments.value? "jobs"))
  else if name == "check" then do
    let arguments ← Arguments.ofWords? checkChoices texts
    return .check (← sources? arguments) (← optional? Format.ofName? (arguments.value? "format"))
  else if name == "usage" then do
    let arguments ← Arguments.ofWords? usageChoices texts
    return .usage (← sources? arguments) (← arguments.value? "command") (arguments.values "path")
  else if name == "parse-comment" then do
    let arguments ← Arguments.ofWords? commentChoices texts
    if arguments.alone.isEmpty then return .comment (← optional? pathOf? (arguments.value? "input"))
    else none
  else none

/-- Read a command line: options for all of it, the name of what is asked for, and more words. The result
is absent if it is not understood. -/
def ofWords? (texts : List String) : Option Request :=
  let isPlain (text : String) := Word.ofText text == .plain
  let general := texts.takeWhile fun text => !isPlain text
  match texts.dropWhile fun text => !isPlain text with
  | [] => none
  | name :: rest =>
    if general.contains "--" then none
    else (Arguments.ofWords? [verbose] general).bind fun _ => ofName? name rest

/-! ## Paths -/

/-- The paths of sources, with those of the settings files that can be next to them. -/
def sourcePaths (sources : Sources) : List Path :=
  sources.inputs ++ sources.inputs.filterMap (fun path => path.parent?.map (·.join settingsFileName))
    ++ sources.settings.toList

/-- The paths that an answer can hang on. -/
def paths : Request → List Path
  | build sources output _ _ _ => sourcePaths sources ++ output.toList
  | check sources _ => sourcePaths sources
  | usage sources _ _ => sourcePaths sources
  | comment input => input.toList

end Request

end CommandDoc
