import CommandDoc.Model.Parameter

/-!
# Command models

A model holds commands; a command holds its subcommands as a row of nodes, in which every node names its
parent and its children by their numbers.

Main definitions:

- `Node`, `Command` and `Model`.
- `Command.find?` follows names and aliases; `Command.ancestors` follows parents.
-/

namespace CommandDoc

/-- The version of the model's shape. -/
def schemaVersion : String := "1.0.0"

/-- A command name and the words behind it, as they are typed. -/
def pathLabel (command : String) (path : List String) : String :=
  " ".intercalate (command :: path)

/-- The first parameter with a name. -/
def findParameter? (parameters : List Parameter) (name : String) : Option Parameter :=
  parameters.find? (·.name == name)

/-- Parameters that one command above a node hands down to it. -/
structure InheritedGroup where
  /-- The label of the command above. -/
  declaredBy : String
  /-- What it hands down. -/
  parameters : List Parameter
  deriving Repr, DecidableEq

/-- A subcommand. Without a function it is there only to hold the subcommands below it. -/
structure Node where
  /-- Its number, which is its place in the row of nodes. -/
  id : Nat
  /-- Its name, the last word of its path. -/
  name : String
  /-- The words that reach it from its command. -/
  path : List String
  /-- The name of its command. -/
  command : String
  /-- The identifier generated for it. -/
  structName : String
  /-- The function it runs. -/
  function : Option Binding := none
  /-- The short description. -/
  description : Option String := none
  /-- The help text. -/
  extendedHelp : Option String := none
  /-- Other names. -/
  aliases : List String := []
  /-- Its own parameters. -/
  parameters : List Parameter := []
  /-- The numbers of the nodes below it. -/
  children : List Nat := []
  /-- The number of the node above it; none directly below the command. -/
  parent : Option Nat := none
  /-- What the commands above hand down to it, the nearest first. -/
  inherited : List InheritedGroup := []
  deriving Repr, DecidableEq

namespace Node

/-- Whether a node runs no function. -/
def isSynthetic (node : Node) : Bool :=
  node.function.isNone

/-- The words that reach a node, command included. -/
def label (node : Node) : String :=
  pathLabel node.command node.path

/-- Whether a word names a node. -/
def answersTo (node : Node) (word : String) : Bool :=
  node.name == word || node.aliases.contains word

end Node

/-- A command line program. -/
structure Command where
  /-- Its name. -/
  name : String
  /-- The package it is generated for. -/
  package : Option String := none
  /-- The identifier generated for it. -/
  structName : String
  /-- The function it runs itself. -/
  function : Option Binding := none
  /-- The short description. -/
  description : Option String := none
  /-- The help text. -/
  extendedHelp : Option String := none
  /-- Its own parameters. -/
  parameters : List Parameter := []
  /-- The numbers of the nodes directly below it. -/
  children : List Nat := []
  /-- Its subcommands. -/
  nodes : List Node := []
  deriving Repr, DecidableEq

namespace Command

/-- The node with a number. -/
def node? (command : Command) (id : Nat) : Option Node :=
  command.nodes[id]?

/-- The nodes with these numbers, as far as there are any. -/
def nodesAt (command : Command) (ids : List Nat) : List Node :=
  ids.filterMap command.node?

/-- The nodes directly below a command. -/
def childNodes (command : Command) : List Node :=
  command.nodesAt command.children

/-- The nodes directly below a node. -/
def childNodesOf (command : Command) (node : Node) : List Node :=
  command.nodesAt node.children

/-- The node above a node. -/
def parentOf? (command : Command) (node : Node) : Option Node :=
  node.parent.bind command.node?

/-- The nodes above a node as far as `fuel` steps reach, the nearest first. -/
def ancestorsWithin (command : Command) : Nat → Node → List Node
  | 0, _ => []
  | fuel + 1, node =>
    match command.parentOf? node with
    | some parent => parent :: ancestorsWithin command fuel parent
    | none => []

/-- The nodes above a node, the nearest first; the command itself is not one of them. A chain of parents
without repetition is no longer than the row of nodes. -/
def ancestors (command : Command) (node : Node) : List Node :=
  command.ancestorsWithin command.nodes.length node

/-- Follow words from a list of siblings downwards. -/
def findFrom? (command : Command) (siblings : List Node) : List String → Option Node
  | [] => none
  | [word] => siblings.find? (·.answersTo word)
  | word :: rest =>
    match siblings.find? (·.answersTo word) with
    | some node => findFrom? command (command.childNodesOf node) rest
    | none => none

/-- The node that a path of names and aliases reaches. -/
def find? (command : Command) (path : List String) : Option Node :=
  command.findFrom? command.childNodes path

end Command

/-- A collection of commands. -/
structure Model where
  /-- The version of the model's shape. -/
  schemaVersion : Option String := none
  /-- The commands. -/
  commands : List Command
  deriving Repr, DecidableEq

namespace Model

/-- A model of the present shape. -/
def ofCommands (commands : List Command) : Model :=
  ⟨some CommandDoc.schemaVersion, commands⟩

/-- The first command with a name. -/
def findCommand? (model : Model) (name : String) : Option Command :=
  model.commands.find? (·.name == name)

/-- The names of the commands. -/
def commandNames (model : Model) : List String :=
  model.commands.map (·.name)

/-- The number of subcommands of all commands. -/
def nodeCount (model : Model) : Nat :=
  (model.commands.flatMap (·.nodes)).length

end Model

end CommandDoc
