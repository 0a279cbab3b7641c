import CommandDoc.Name.Identifier
import CommandDoc.Tree.Basic

/-!
# From trees to models

Every command of a tree becomes a row of nodes in the order of their paths. Then parameters that are
declared above take over what is said there, and every node gets the parameters handed down to it.

Main definitions:

- `Branch.nodeRow`: the nodes of a command before their parameters are completed.
- `resolveNodes`: parameters declared above.
- `inheritedGroups`: parameters handed down.
- `Branch.flatten` and `CommandTree.flatten`.
-/

namespace CommandDoc

/-! ## Rows of nodes -/

/-- The numbers of the paths that are one word longer than `path`. -/
def childIds (paths : List (List String)) (path : List String) : List Nat :=
  paths.zipIdx.filterMap fun (other, id) => if other.dropLast == path then some id else none

/-- The number of the path without its last word; none for a single word. -/
def parentId? (paths : List (List String)) (path : List String) : Option Nat :=
  paths.idxOf? path.dropLast

/-- Parameters with the label of the command that declares them. -/
def declaredBy (label : String) (parameters : List Parameter) : List Parameter :=
  parameters.map fun p => { p with declaredBy := some label }

/-- The text that the generated name of a path is made of: the function at it, or else the given word. -/
def nameSeed (word : String) (payload : Option Declaration) : String :=
  (payload.map (·.binding.name)).getD word

/-- The node at a path. -/
def pathNode (command : String) (paths : List (List String)) (id : Nat) (structName : String)
    (path : List String) (payload : Option Declaration) : Node where
  id := id
  name := path.getLastD ""
  path := path
  command := command
  structName := structName
  function := payload.map (·.binding)
  description := payload.bind (·.description)
  extendedHelp := payload.bind (·.extendedHelp)
  aliases := (payload.map (·.aliases)).getD []
  parameters := declaredBy (pathLabel command path) ((payload.map (·.parameters)).getD [])
  children := childIds paths path
  parent := parentId? paths path

namespace Branch

/-- The paths of a command. -/
def paths (branch : Branch) : List (List String) :=
  branch.nodes.map (·.1)

/-- What the generated names are made of, for the command and then for its nodes. -/
def nameSeeds (branch : Branch) (command : String) : List String :=
  nameSeed command branch.root
    :: branch.nodes.map fun (path, payload) => nameSeed (path.getLastD "") payload

/-- The package a command is generated for: that of its function, or else the first of all. -/
def package? (branch : Branch) : Option String :=
  (branch.root.map (·.binding.package)).or branch.packages.head?

/-- The nodes of a command with the given names. -/
def nodeRow (branch : Branch) (command : String) (structNames : List String) : List Node :=
  (branch.nodes.zip structNames).zipIdx.map fun (((path, payload), structName), id) =>
    pathNode command branch.paths id structName path payload

/-- A command before the parameters of its nodes are completed. -/
def row (branch : Branch) (command : String) (reserved : List String) : Command :=
  let structNames := (NamePool.withReserved reserved).allocateAll (branch.nameSeeds command)
  { name := command
    package := branch.package?
    structName := structNames.headD ""
    function := branch.root.map (·.binding)
    description := branch.root.bind (·.description)
    extendedHelp := branch.root.bind (·.extendedHelp)
    parameters := declaredBy command ((branch.root.map (·.parameters)).getD [])
    children := childIds branch.paths []
    nodes := branch.nodeRow command structNames.tail }

end Branch

/-! ## Parameters declared above -/

/-- A parameter that takes over everything but its name and type from the one declared above. -/
def Parameter.deferTo (p source : Parameter) : Parameter :=
  { source with name := p.name, type := p.type, fromParent := true, inherited := false }

/-- A parameter with what the scopes above say about it, if it is declared there. -/
def resolveParameter (label : String) (scopes : List (List Parameter)) (p : Parameter) :
    Except BuildError Parameter :=
  if p.fromParent then
    match scopes.findSome? fun parameters => findParameter? parameters p.name with
    | some source => .ok (p.deferTo source)
    | none => .error (.unresolvedParentParameter label p.name)
  else .ok p

/-- The parameters of the scopes above a node, the nearest first and the command last. -/
def Command.parametersAbove (command : Command) (node : Node) : List (List Parameter) :=
  (command.ancestors node).map (·.parameters) ++ [command.parameters]

/-- Complete the parameters of nodes in order, where `done` are the nodes before. The nodes above a node
are among them. -/
def resolveNodes (command : Command) (done : List Node) : List Node → Except BuildError (List Node)
  | [] => .ok done
  | node :: rest => do
    let scopes := { command with nodes := done }.parametersAbove node
    let parameters ← node.parameters.mapM (resolveParameter node.label scopes)
    resolveNodes command (done ++ [{ node with parameters := parameters }]) rest

/-- Complete the parameters of a command's nodes. The command itself has nothing above it. -/
def Command.resolve (command : Command) : Except BuildError Command :=
  match command.parameters.find? (·.fromParent) with
  | some p => .error (.unresolvedParentParameter command.name p.name)
  | none => (resolveNodes command [] command.nodes).map fun nodes => { command with nodes := nodes }

/-! ## Parameters handed down -/

/-- What the scopes above hand down, where parameters of the names in `shadowed` are hidden. Each scope
hides its own names from those above it. -/
def inheritedGroups (shadowed : List String) : List (String × List Parameter) → List InheritedGroup
  | [] => []
  | (label, parameters) :: scopes =>
    let visible := parameters.filter fun p => p.inherited && !shadowed.contains p.name
    let rest := inheritedGroups (parameters.map (·.name) ++ shadowed) scopes
    if visible.isEmpty then rest else ⟨label, visible⟩ :: rest

/-- The scopes above a node with their labels, the nearest first and the command last. -/
def Command.scopesAbove (command : Command) (node : Node) : List (String × List Parameter) :=
  (command.ancestors node).map (fun above => (above.label, above.parameters))
    ++ [(command.name, command.parameters)]

/-- A node with what is handed down to it. -/
def Command.withInherited (command : Command) (node : Node) : Node :=
  { node with
    inherited := inheritedGroups (node.parameters.map (·.name)) (command.scopesAbove node) }

/-- A command with what is handed down to its nodes. -/
def Command.inherit (command : Command) : Command :=
  { command with nodes := command.nodes.map command.withInherited }

/-! ## Flattening -/

/-- The command of a branch. -/
def Branch.flatten (branch : Branch) (command : String) (reserved : List String) :
    Except BuildError Command :=
  (branch.row command reserved).resolve.map Command.inherit

/-- The model of a tree, with names that are not to be generated. -/
def CommandTree.flatten (tree : CommandTree) (reserved : List String) : Except BuildError Model := do
  let commands ← tree.commands.mapM fun entry => Branch.flatten entry.2 entry.1 reserved
  return Model.ofCommands commands

end CommandDoc
