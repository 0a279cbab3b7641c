import CommandDoc.Build.Error
import CommandDoc.Comment.Directive

/-!
# Declarations of commands

A function whose doc comment declares a subcommand gives a declaration: the path of the subcommand, the
function to run, and a finished record for every parameter of the signature.

Main definitions:

- `Declaration` and `Extraction`.
- `assignPositions` numbers the arguments that have no position.
- `SourceUnit.extractFunction` and `SourceUnit.extract`.
-/

namespace CommandDoc

/-- A command or subcommand that a function declares. -/
structure Declaration where
  /-- The name of the command. -/
  command : String
  /-- The words behind the name; none for the command itself. -/
  path : List String
  /-- The function to run. -/
  binding : Binding
  /-- The short description. -/
  description : Option String := none
  /-- The help text. -/
  extendedHelp : Option String := none
  /-- Other names, in ascending order. -/
  aliases : List String := []
  /-- The parameters, in the order of the signature. -/
  parameters : List Parameter := []
  deriving Repr, DecidableEq

namespace Declaration

/-- The words that reach what is declared. -/
def label (d : Declaration) : String :=
  pathLabel d.command d.path

/-- Whether a command itself is declared. -/
def isRoot (d : Declaration) : Bool :=
  d.path.isEmpty

end Declaration

/-- What functions declare, and the warnings about their comments. -/
structure Extraction where
  /-- The declarations, in order. -/
  declarations : List Declaration := []
  /-- The warnings, in order. -/
  warnings : List Warning := []
  deriving Repr, DecidableEq

/-! ## Signatures -/

/-- Read the type of a declared parameter. -/
def SourceParam.typed (function : String) (p : SourceParam) : Except BuildError TypedParam :=
  match if p.variadic then TypeTag.ofVariadicText p.typeText else TypeTag.ofText p.typeText with
  | .ok type => .ok ⟨p.name, type, p.variadic⟩
  | .error _ => .error (.unsupportedParameterType function p.name p.typeText)

/-! ## Parameters -/

/-- The text of a comment beside a parameter, on one line; none if there is no text. -/
def commentText? (comment : String) : Option (List Char) :=
  let text := Text.collapse (Comment.normalize comment.toList)
  if text.isEmpty then none else some text

/-- What the comments say about a parameter, each with its source. -/
def candidates (documented : Option Candidate) (p : SourceParam) : List (CandidateSource × Candidate) :=
  let beside (source : CandidateSource) (comment : Option String) :=
    ((comment.bind commentText?).map fun text => (source, Candidate.ofChars text)).toList
  (documented.map fun c => (CandidateSource.docComment, c)).toList
    ++ beside .inlineComment p.inlineComment ++ beside .precedingComment p.precedingComment

/-- The finished parameters of a signature, and what the doc comment says about others. The first parameter
of a name takes what is said about that name. -/
def finishParameters (documented : List (String × Candidate)) :
    List (SourceParam × TypedParam) → List Parameter × List (String × Candidate)
  | [] => ([], documented)
  | (declared, typed) :: rest =>
    let found := candidates (Ordered.find? typed.name documented) declared
    let (parameters, left) := finishParameters (Ordered.erase typed.name documented) rest
    (Parameter.resolve typed (Candidate.merge found) :: parameters, left)

/-- The greatest position given, or zero. -/
def greatestPosition (parameters : List Parameter) : UInt32 :=
  (parameters.filterMap (·.position)).foldl (fun greatest n => if greatest < n then n else greatest) 0

/-- Number the arguments without a position, from the one behind `last` on. -/
def assignPositionsAfter (function : String) (last : UInt32) :
    List Parameter → Except BuildError (List Parameter)
  | [] => .ok []
  | p :: parameters =>
    if p.positional && p.position.isNone then
      if last == 4294967295 then .error (.positionOutOfRange function p.name)
      else do
        let rest ← assignPositionsAfter function (last + 1) parameters
        return { p with position := some (last + 1) } :: rest
    else do
      let rest ← assignPositionsAfter function last parameters
      return p :: rest

/-- Number the arguments without a position behind all that have one. -/
def assignPositions (function : String) (parameters : List Parameter) :
    Except BuildError (List Parameter) :=
  assignPositionsAfter function (greatestPosition parameters) parameters

/-! ## Warnings -/

/-- Parameters that are documented and not in the signature. -/
def unknownParameterWarnings (function label : String) (left : List (String × Candidate)) :
    List Warning :=
  left.map fun (name, _) =>
    ⟨.unknownParameter, label,
      "documented parameter '" ++ name ++ "' is not in the signature of " ++ function⟩

/-- A subcommand without a short description. -/
def shortDescriptionWarnings (label : String) (directive : Directive) : List Warning :=
  if !directive.sequence.isEmpty && directive.description.isNone then
    [⟨.missingShortDescription, label, "subcommand has no short description"⟩]
  else []

/-- Parameters without a description beside others with one; those declared above do not count. -/
def descriptionWarnings (label : String) (parameters : List Parameter) : List Warning :=
  let own := parameters.filter fun p => !p.fromParent
  if own.any fun p => p.description.isSome then
    (own.filter fun p => p.description.isNone).map fun p =>
      ⟨.missingParameterDescription, label, "parameter '" ++ p.name ++ "' has no description"⟩
  else []

/-! ## Extraction -/

namespace SourceUnit

/-- The declaration of a function whose directive names a command. -/
def extractCommand (source : SourceUnit) (f : SourceFunction) (directive : Directive)
    (style : List Warning) : Except BuildError Extraction := do
  if 1 < f.returns.valueCount then
    throw (.multipleReturnValues f.name f.returns.valueCount)
  let signature ← f.parameters.mapM (·.typed f.name)
  let (finished, left) := finishParameters directive.params (f.parameters.zip signature)
  let parameters ← assignPositions f.name finished
  let label := pathLabel directive.command directive.sequence
  let declaration : Declaration := {
    command := directive.command
    path := directive.sequence
    binding := ⟨f.name, source.package, source.file, f.docSpan, signature, f.returns⟩
    description := directive.description
    extendedHelp := directive.extendedHelp
    aliases := Ordered.sortStrings ((directive.aliases.map Text.trimmed).filter (· ≠ ""))
    parameters := parameters }
  return {
    declarations := [declaration]
    warnings := style ++ unknownParameterWarnings f.name label left
      ++ shortDescriptionWarnings label directive ++ descriptionWarnings label parameters }

/-- What a function declares. A comment that declares nothing gives nothing, not even warnings; one that
names no command gives warnings alone. -/
def extractFunction (source : SourceUnit) (f : SourceFunction) : Except BuildError Extraction :=
  let (directive, style) := readComment f.name f.doc
  if !directive.isCommand then .ok {}
  else if directive.command == "" then
    .ok {
      warnings := style ++
        [⟨.missingCommandName, f.name,
          "subcommand marker without a \x60command path\x60 in backticks, skipping"⟩] }
  else extractCommand source f directive style

/-- What the functions of a unit declare, in order. -/
def extract (source : SourceUnit) : Except BuildError Extraction := do
  let parts ← source.functions.mapM source.extractFunction
  return {
    declarations := parts.flatMap (·.declarations)
    warnings := parts.flatMap (·.warnings) }

end SourceUnit

end CommandDoc
