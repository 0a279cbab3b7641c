import CommandDoc.Model.Basic
import CommandDoc.Warning

/-!
# Build reports

What a build made: how many declarations, what each command consists of, and the warnings.

Main definitions:

- `CommandSummary.ofCommand` counts the parts of a command.
- `Report.ofModel` reports about a model.
-/

namespace CommandDoc

/-- The parts of a command, counted. -/
structure CommandSummary where
  /-- Its name. -/
  name : String
  /-- The identifier generated for it. -/
  structName : String
  /-- The package it is generated for. -/
  package : Option String
  /-- The number of nodes. -/
  nodes : Nat
  /-- The number of nodes without a function. -/
  syntheticNodes : Nat
  /-- The number of parameters of the command and its nodes. -/
  parameters : Nat
  deriving Repr, DecidableEq

/-- Count the parts of a command. -/
def CommandSummary.ofCommand (command : Command) : CommandSummary where
  name := command.name
  structName := command.structName
  package := command.package
  nodes := command.nodes.length
  syntheticNodes := (command.nodes.filter Node.isSynthetic).length
  parameters := command.parameters.length + (command.nodes.flatMap (·.parameters)).length

/-- A report about one build. -/
structure Report where
  /-- The version of the model's shape. -/
  schemaVersion : Option String
  /-- The number of declarations in the model. -/
  declarations : Nat
  /-- What each command consists of. -/
  commands : List CommandSummary
  /-- The warnings. -/
  warnings : List Warning
  deriving Repr, DecidableEq

namespace Report

/-- The report about a model, with warnings that are sorted already. -/
def ofModel (model : Model) (declarations : Nat) (warnings : List Warning) : Report where
  schemaVersion := model.schemaVersion
  declarations := declarations
  commands := model.commands.map CommandSummary.ofCommand
  warnings := warnings

/-- The number of nodes of all commands. -/
def nodeCount (report : Report) : Nat :=
  report.commands.foldr (fun summary count => summary.nodes + count) 0

/-- The number of parameters of all commands. -/
def parameterCount (report : Report) : Nat :=
  report.commands.foldr (fun summary count => summary.parameters + count) 0

/-- Whether there are warnings. -/
def hasWarnings (report : Report) : Bool :=
  !report.warnings.isEmpty

/-- The warnings, one on each line. -/
def warningLines (report : Report) : List String :=
  report.warnings.map Warning.display

end Report

end CommandDoc
