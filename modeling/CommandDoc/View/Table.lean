import CommandDoc.Report
import CommandDoc.View.Columns

/-!
# Tables

Models and reports with one line for each command or node.

Main definitions:

- `Model.table` and `Report.table`.
-/

namespace CommandDoc

/-- What the table of a model shows of a command or node. -/
structure TableRow where
  /-- The words that reach it. -/
  path : String
  /-- The identifier generated for it. -/
  structName : String
  /-- The number of its parameters. -/
  parameters : Nat
  /-- The short description. -/
  description : String
  deriving Repr, DecidableEq

/-- The rows of a command: its own and those of its nodes. -/
def Command.tableRows (c : Command) : List TableRow :=
  ⟨c.name, c.structName, c.parameters.length, c.description.getD ""⟩
    :: c.nodes.map fun n => ⟨n.label, n.structName, n.parameters.length, n.description.getD ""⟩

/-- A line of a table, given the widths of its first two columns. -/
def TableRow.render (pathWidth structWidth : Nat) (row : TableRow) : String :=
  View.padTo pathWidth row.path ++ "  " ++ View.padTo structWidth row.structName
    ++ "  params=" ++ toString row.parameters ++ "  " ++ row.description ++ "\n"

/-- The lines of a command. -/
def Command.table (c : Command) : String :=
  let pathWidth := View.columnWidth (c.tableRows.map (·.path))
  let structWidth := View.columnWidth (c.tableRows.map (·.structName))
  String.join (c.tableRows.map (TableRow.render pathWidth structWidth))

/-- A model as table. -/
def Model.table (m : Model) : String :=
  String.join (m.commands.map Command.table)

/-- The line of a command in a report. -/
def CommandSummary.tableLine (s : CommandSummary) : String :=
  View.padTo 20 s.name ++ " nodes=" ++ View.padTo 4 (toString s.nodes)
    ++ " synthetic=" ++ View.padTo 4 (toString s.syntheticNodes)
    ++ " params=" ++ toString s.parameters ++ "\n"

/-- A report as table. -/
def Report.table (r : Report) : String :=
  String.join (r.commands.map CommandSummary.tableLine)
    ++ "warnings=" ++ toString r.warnings.length ++ "\n"

end CommandDoc
