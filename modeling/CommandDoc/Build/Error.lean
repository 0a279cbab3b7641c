import CommandDoc.Model.Validation

/-!
# Why a build fails

Main definitions:

- `BuildError` and `BuildError.message`.
-/

namespace CommandDoc

/-- What stops a build. -/
inductive BuildError where
  /-- A parameter has a type that is not supported. -/
  | unsupportedParameterType (function parameter typeText : String)
  /-- A function returns more than one value besides an error. -/
  | multipleReturnValues (function : String) (count : Nat)
  /-- Two functions declare one command. -/
  | duplicateDefinition (path existing incoming : String)
  /-- No position is left behind the greatest one given. -/
  | positionOutOfRange (function parameter : String)
  /-- No command above declares a parameter that is said to be declared there. -/
  | unresolvedParentParameter (path parameter : String)
  /-- The model has faults. -/
  | invalid (faults : List Fault)
  /-- There are warnings although none are allowed. -/
  | strictWarnings (count : Nat)
  deriving Repr, DecidableEq

/-- What is said about a failed build. -/
def BuildError.message : BuildError → String
  | unsupportedParameterType function parameter typeText =>
    "function " ++ function ++ ": parameter '" ++ parameter ++ "' has unsupported type '" ++ typeText ++ "'"
  | multipleReturnValues function count =>
    "function " ++ function ++ ": " ++ toString count
      ++ " non-error return values, at most one is supported"
  | duplicateDefinition path existing incoming =>
    "'" ++ path ++ "' is declared by both " ++ existing ++ " and " ++ incoming
  | positionOutOfRange function parameter =>
    "function " ++ function ++ ": no positional index left for parameter '" ++ parameter ++ "'"
  | unresolvedParentParameter path parameter =>
    "'" ++ path ++ "': parameter '" ++ parameter ++ "' defers to a parent that does not declare it"
  | invalid faults => "model validation failed: " ++ "; ".intercalate (faults.map Fault.message)
  | strictWarnings count => toString count ++ " warning(s) reported in strict mode"

end CommandDoc
