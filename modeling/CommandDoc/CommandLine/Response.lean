import CommandDoc.CommandLine.Request
import CommandDoc.Comment.Directive
import CommandDoc.Data.Directive
import CommandDoc.Files.Settings
import CommandDoc.View.Usage

/-!
# Answers to a command line

An answer is found from the files, the standard input and the time alone. It says what to print, what to
write, and how the program ends.

Main definitions:

- `Surroundings`, `Response` and `Failure`.
- `Request.answer`.
-/

namespace CommandDoc

/-- The version of this tool. -/
def toolVersion : String := "0.1.0"

/-- What an answer can hang on besides the command line. -/
structure Surroundings where
  /-- The files. -/
  files : FileTree
  /-- The standard input, which is absent if it is not valid text. -/
  input : Option String := some ""
  /-- The time, as it is written into bundles. -/
  time : String
  deriving Repr

/-- An answer. -/
structure Response where
  /-- Zero for success. -/
  code : Nat := 0
  /-- What is printed. -/
  output : String := ""
  /-- What is printed as warnings and errors. -/
  errors : String := ""
  /-- A file to write, with its text. -/
  document : Option (Path × String) := none
  deriving Repr, DecidableEq

/-! ## Failures -/

/-- Why there is no answer. -/
inductive Failure where
  /-- Something is wrong with the declaration files. -/
  | files (error : FileError)
  /-- Something is wrong with a settings file. -/
  | settings (path : Path) (error : FileError)
  /-- Something is wrong with the declarations. -/
  | build (error : BuildError)
  /-- There is no such command. -/
  | unknownCommand (name : String)
  /-- There is no such subcommand. -/
  | unknownSubcommand (command : String) (path : List String)
  /-- A comment cannot be read. -/
  | unreadable (path : Path)
  /-- The standard input cannot be read. -/
  | unreadableInput
  /-- A folder cannot be made. -/
  | noFolder (path : Path)
  /-- A file cannot be written. -/
  | unwritable (path : Path)
  deriving Repr, DecidableEq

/-- What is said about a failure. -/
def Failure.message : Failure → String
  | files error => error.message
  | settings path error => "Failed to load config '" ++ path.text ++ "': " ++ error.message
  | build error => error.message
  | unknownCommand name => "Command '" ++ name ++ "' is not declared"
  | unknownSubcommand command path =>
    "Subcommand '" ++ command ++ " " ++ " ".intercalate path ++ "' is not declared"
  | unreadable path => "Failed to read '" ++ path.text ++ "': there is no text"
  | unreadableInput => "Failed to read stdin: stream did not contain valid UTF-8"
  | noFolder path => "Failed to create output directory '" ++ path.text ++ "': there is something else"
  | unwritable path => "Failed to write '" ++ path.text ++ "': there is no place for it"

/-- The answer to a command line that fails. -/
def Failure.response (failure : Failure) : Response where
  code := 1
  errors := "error: " ++ failure.message ++ "\n"

/-- The answer to a command line that is not understood. -/
def Response.misunderstood : Response where
  code := 2
  errors := "error: the arguments are not understood\n"

/-! ## Models -/

namespace Surroundings

/-- The settings that hold for some sources. -/
def settingsFor (around : Surroundings) (sources : Sources) : Except Failure Settings :=
  match sources.settings.or (around.files.findSettings? sources.inputs) with
  | some path => (around.files.readSettings path).mapError (.settings path)
  | none => .ok {}

/-- Build a model from files. -/
def buildFrom (around : Surroundings) (inputs : List Path) (settings : Settings) :
    Except Failure Outcome := do
  let paths ← (around.files.declarationPaths inputs).mapError .files
  let units ← (around.files.readUnits paths).mapError .files
  (CommandDoc.build units settings).mapError .build

/-- The files after a text is written into one, for which folders are made. -/
def store (around : Surroundings) (path : Path) (text : String) : Except Failure FileTree := do
  let folder := path.parent?.getD ⟨""⟩
  let prepared ←
    if folder.text.isEmpty then pure around.files
    else
      match around.files.makeFolders? folder with
      | some made => pure made
      | none => throw (.noFolder folder)
  match prepared.write? path (some text) with
  | some written => return written
  | none => throw (.unwritable path)

/-! ## Answers -/

/-- What is said about warnings if there are some. -/
def warningNote (report : Report) : String :=
  if report.hasWarnings then toString report.warnings.length ++ " warning(s) emitted during build.\n"
  else ""

/-- Answer with a model. In JSON it is packed into a bundle. -/
def answerBuild (around : Surroundings) (sources : Sources) (output : Option Path) (format : Format)
    (strict : Bool) (jobs : Option Nat) : Except Failure Response := do
  let found ← around.settingsFor sources
  let settings := { found with strict := found.strict || strict, jobs := jobs.or found.jobs }
  let outcome ← around.buildFrom sources.inputs settings
  let text :=
    if format == .json then
      (Bundle.ofBuild toolVersion around.time outcome.model outcome.report).render
    else outcome.model.render format
  let errors := warningNote outcome.report
  match output with
  | none => return { output := text ++ "\n", errors }
  | some path =>
    let _ ← around.store path text
    let said := "Built " ++ toString outcome.model.commands.length ++ " command(s) with "
      ++ toString outcome.model.nodeCount ++ " subcommand(s) into '" ++ path.text ++ "'.\n"
    return { output := said, errors, document := some (path, text) }

/-- Answer with a report, in short if no format is given. -/
def answerCheck (around : Surroundings) (sources : Sources) (format : Option Format) :
    Except Failure Response := do
  let settings ← around.settingsFor sources
  let outcome ← around.buildFrom sources.inputs settings
  let report := outcome.report
  match format with
  | some format => return { output := report.render format ++ "\n" }
  | none =>
    let warnings := String.join (report.warningLines.map fun line => "warning: " ++ line ++ "\n")
    let counts := "Checked " ++ toString report.declarations ++ " declaration(s): "
      ++ toString outcome.model.commands.length ++ " command(s), " ++ toString outcome.model.nodeCount
      ++ " subcommand(s), " ++ toString report.warnings.length ++ " warning(s).\n"
    return { output := warnings ++ counts }

/-- Answer with how a command or subcommand is used. -/
def answerUsage (around : Surroundings) (sources : Sources) (name : String) (path : List String) :
    Except Failure Response := do
  let settings ← around.settingsFor sources
  let outcome ← around.buildFrom sources.inputs settings
  match outcome.model.findCommand? name with
  | none => throw (.unknownCommand name)
  | some command =>
    if path.isEmpty then return { output := (Usage.ofCommand command).render }
    else
      match command.find? path with
      | none => throw (.unknownSubcommand name path)
      | some node => return { output := (Usage.ofNode command node).render }

/-- Answer with what a comment declares. -/
def answerComment (around : Surroundings) (input : Option Path) : Except Failure Response := do
  let doc ←
    match input with
    | some path =>
      match around.files.readText? path with
      | some text => pure text
      | none => throw (.unreadable path)
    | none =>
      match around.input with
      | some text => pure text
      | none => throw .unreadableInput
  let (directive, warnings) := readComment "<comment>" doc
  let errors := String.join (warnings.map fun warning => "warning: " ++ warning.display ++ "\n")
  return { output := Json.pretty directive.toData ++ "\n", errors }

end Surroundings

/-- The answer to a request. -/
def Request.answer (around : Surroundings) (request : Request) : Response :=
  let result := match request with
    | build sources output format strict jobs =>
      around.answerBuild sources output format strict jobs
    | check sources format => around.answerCheck sources format
    | usage sources command path => around.answerUsage sources command path
    | comment input => around.answerComment input
  match result with
  | .ok response => response
  | .error failure => failure.response

end CommandDoc
