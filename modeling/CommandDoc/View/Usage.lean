import CommandDoc.Model.Basic
import CommandDoc.View.Columns

/-!
# Usage screens

What a user sees who asks how a command is used: the words to type, the description, and a section for
each group of flags, for the arguments and for the subcommands.

Main definitions:

- `Usage` with `Usage.ofCommand` and `Usage.ofNode`: what a screen shows.
- `Usage.render`: the text of a screen.
-/

namespace CommandDoc

/-- What a usage screen shows. -/
structure Usage where
  /-- The words that reach the command. -/
  label : String
  /-- The short description. -/
  description : Option String
  /-- The help text. -/
  extendedHelp : Option String
  /-- The parameters of the command itself. -/
  parameters : List Parameter
  /-- The parameters handed down to it, the nearest first. -/
  inherited : List InheritedGroup
  /-- The subcommands directly below it. -/
  subcommands : List Node
  deriving Repr, DecidableEq

/-- A row of a section: what it is about, and what is said about it. -/
structure UsageRow where
  /-- What the row is about. -/
  left : String
  /-- What is said about it. -/
  right : String
  deriving Repr, DecidableEq

/-- A section of a screen: its title and its rows. -/
structure UsageSection where
  /-- The title. -/
  title : String
  /-- The rows. -/
  rows : List UsageRow
  deriving Repr, DecidableEq

/-! ## Parameters -/

namespace Parameter

/-- An argument in the words to type: in angle brackets if it must be given, in square brackets if not,
with dots behind it if it can be given again. -/
def argumentToken (p : Parameter) : String :=
  let named :=
    if p.required || (p.vararg && 0 < p.varMin) then "<" ++ p.name ++ ">" else "[" ++ p.name ++ "]"
  if p.vararg then named ++ "..." else named

/-- What is noted about a flag besides its description. -/
def notes (p : Parameter) : List String :=
  (p.defaultValue.map fun value => "default: " ++ value).toList
    ++ (p.envVar.map fun name => "env: " ++ name).toList
    ++ (if p.required then ["required"] else [])

/-- The names and the type of a flag; a truth value shows no type. -/
def flagLeft (p : Parameter) : String :=
  if p.type.isBool then p.flagDisplay else p.flagDisplay ++ " <" ++ p.type.spelling ++ ">"

/-- The description of a flag with its notes in parentheses. -/
def flagRight (p : Parameter) : String :=
  let description := p.description.getD ""
  if p.notes.isEmpty then description
  else
    (if description == "" then "" else description ++ " ") ++ "(" ++ ", ".intercalate p.notes ++ ")"

/-- The row of a flag. -/
def flagRow (p : Parameter) : UsageRow :=
  ⟨p.flagLeft, p.flagRight⟩

/-- The row of an argument. -/
def argumentRow (p : Parameter) : UsageRow :=
  ⟨p.argumentToken, p.description.getD ""⟩

/-- The place of an argument among the others; one without a position comes last. -/
def argumentRank (p : Parameter) : Nat :=
  (p.position.map UInt32.toNat).getD 4294967295

end Parameter

/-- The row of a subcommand, with its other names in parentheses. -/
def Node.usageRow (node : Node) : UsageRow where
  left := if node.aliases.isEmpty then node.name
    else node.name ++ " (" ++ ", ".intercalate node.aliases ++ ")"
  right := node.description.getD ""

/-! ## Sections -/

namespace UsageSection

/-- A row, where `width` is the width of the left column. -/
def renderRow (width : Nat) (row : UsageRow) : String :=
  if row.right == "" then "  " ++ row.left ++ "\n"
  else "  " ++ View.padTo width row.left ++ "  " ++ row.right ++ "\n"

/-- The text of a section; one without rows is left out. -/
def render (s : UsageSection) : String :=
  if s.rows.isEmpty then ""
  else
    let width := View.columnWidth (s.rows.map (·.left))
    "\n" ++ s.title ++ "\n" ++ String.join (s.rows.map (renderRow width))

end UsageSection

/-! ## Screens -/

namespace Usage

/-- The screen of a command. -/
def ofCommand (command : Command) : Usage where
  label := command.name
  description := command.description
  extendedHelp := command.extendedHelp
  parameters := command.parameters
  inherited := []
  subcommands := command.childNodes

/-- The screen of a node. -/
def ofNode (command : Command) (node : Node) : Usage where
  label := node.label
  description := node.description
  extendedHelp := node.extendedHelp
  parameters := node.parameters
  inherited := node.inherited
  subcommands := command.childNodesOf node

/-- The flags of the command itself. -/
def ownFlags (u : Usage) : List Parameter :=
  u.parameters.filter Parameter.isFlag

/-- Whether there is any flag, handed down ones included. -/
def hasFlags (u : Usage) : Bool :=
  !u.ownFlags.isEmpty || u.inherited.any fun g => g.parameters.any Parameter.isFlag

/-- The arguments by position; those of one position keep their order. -/
def arguments (u : Usage) : List Parameter :=
  (u.parameters.filter (·.positional)).mergeSort fun p q => p.argumentRank ≤ q.argumentRank

/-- The words to type. -/
def headline (u : Usage) : String :=
  " ".intercalate
    (["Usage:", u.label] ++ (if u.hasFlags then ["[flags]"] else [])
      ++ u.arguments.map Parameter.argumentToken
      ++ (if u.subcommands.isEmpty then [] else ["<command>"]))

/-- The section of the flags that one group hands down. -/
def groupSection (g : InheritedGroup) : UsageSection :=
  ⟨"Flags for " ++ g.declaredBy ++ ":", (g.parameters.filter Parameter.isFlag).map Parameter.flagRow⟩

/-- The sections, empty ones included. -/
def sections (u : Usage) : List UsageSection :=
  [⟨"Flags:", u.ownFlags.map Parameter.flagRow⟩] ++ u.inherited.map groupSection
    ++ [⟨"Arguments:", u.arguments.map Parameter.argumentRow⟩,
      ⟨"Subcommands:", u.subcommands.map Node.usageRow⟩]

/-- A paragraph behind a blank line, if there is one. -/
def paragraph (text : Option String) : String :=
  match text with
  | some s => "\n" ++ s ++ "\n"
  | none => ""

/-- The text of a screen. -/
def render (u : Usage) : String :=
  u.headline ++ "\n" ++ paragraph u.description ++ paragraph u.extendedHelp
    ++ String.join (u.sections.map UsageSection.render)

end Usage

/-- The screens of a command and of all its nodes, in order. -/
def Command.usages (command : Command) : List Usage :=
  Usage.ofCommand command :: command.nodes.map (Usage.ofNode command)

end CommandDoc
