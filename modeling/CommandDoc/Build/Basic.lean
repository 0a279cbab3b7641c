import CommandDoc.Bundle
import CommandDoc.Tree.Flatten

/-!
# Builds

A build collects what source units declare and ends with a model and a report about it.

Main definitions:

- `Settings` and `Assembly`.
- `Assembly.addUnit`, `Assembly.addUnits` and `Assembly.finish`.
- `build` runs a whole build.
-/

namespace CommandDoc

/-- What can be chosen for a build. -/
structure Settings where
  /-- Names that must not be generated, besides those that are always reserved. -/
  reservedNames : List String := []
  /-- Whether a warning is an error. -/
  strict : Bool := false
  /-- How many units are read at a time; it has no effect on the result. -/
  jobs : Option Nat := none
  deriving Repr, DecidableEq

/-- A finished build. -/
structure Outcome where
  /-- The model. -/
  model : Model
  /-- The report about it. -/
  report : Report
  deriving Repr, DecidableEq

/-- A build that is going on. -/
structure Assembly where
  /-- What was chosen for it. -/
  settings : Settings := {}
  /-- What is declared so far. -/
  tree : CommandTree := {}
  /-- The warnings so far, in order. -/
  warnings : List Warning := []
  deriving Repr, DecidableEq

namespace Assembly

/-- Add what was extracted from a unit. All its warnings are kept, and its declarations up to the first
that is refused. -/
def absorb (assembly : Assembly) (extraction : Extraction) : Assembly × Option BuildError :=
  let (tree, error) := assembly.tree.insertAll extraction.declarations
  ({ assembly with tree := tree, warnings := assembly.warnings ++ extraction.warnings }, error)

/-- Add extractions one after another up to the first error. -/
def absorbAll (assembly : Assembly) : List (Except BuildError Extraction) → Assembly × Option BuildError
  | [] => (assembly, none)
  | .error error :: _ => (assembly, some error)
  | .ok extraction :: rest =>
    match assembly.absorb extraction with
    | (next, none) => absorbAll next rest
    | (next, some error) => (next, some error)

/-- Add a unit. -/
def addUnit (assembly : Assembly) (source : SourceUnit) : Assembly × Option BuildError :=
  assembly.absorbAll [source.extract]

/-- Add units one after another up to the first error. -/
def addUnits (assembly : Assembly) (units : List SourceUnit) : Assembly × Option BuildError :=
  assembly.absorbAll (units.map SourceUnit.extract)

/-- End a build: flatten the tree, check the model, and report. -/
def finish (assembly : Assembly) : Except BuildError Outcome := do
  let model ← assembly.tree.flatten assembly.settings.reservedNames
  let faults := model.faults
  if !faults.isEmpty then throw (.invalid faults)
  let warnings := Warning.sort assembly.warnings
  if assembly.settings.strict && !warnings.isEmpty then throw (.strictWarnings warnings.length)
  return ⟨model, Report.ofModel model assembly.tree.size warnings⟩

end Assembly

/-- Build a model from source units. -/
def build (units : List SourceUnit) (settings : Settings) : Except BuildError Outcome :=
  match Assembly.addUnits { settings := settings } units with
  | (assembly, none) => assembly.finish
  | (_, some error) => .error error

end CommandDoc
