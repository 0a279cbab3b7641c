import CommandDoc.Tree.Flatten

/-!
# Nested trees

The tree of a command in which every node holds the nodes below it. A declaration is inserted by a walk down its
path, on which missing nodes are made, and the tree counts what it accepts. A depth-first walk lays the nodes out
in a row: each gets the next number and the next name before the nodes below it do, and its children are written
into it when the walk comes back.

Main definitions:

- `Forest`, `NestedNode`, `NestedEntry` and `NestedTree`.
- `NestedTree.insert` adds a declaration, or says why it does not.
- `Forest.visit` lays nodes out, and `NestedTree.flatten` makes a model of a tree.
-/

namespace CommandDoc

/-- Nodes beside each other in ascending order of their words, each with the nodes below it. -/
inductive Forest where
  /-- No nodes. -/
  | nil
  /-- A node with what is declared at it and the nodes below it, and the nodes behind it. -/
  | cons (word : String) (payload : Option Declaration) (below rest : Forest)
  deriving Repr, DecidableEq

/-- A node: what is declared at it, and the nodes below it. -/
structure NestedNode where
  /-- What is declared at it. -/
  payload : Option Declaration := none
  /-- The nodes below it. -/
  children : Forest := .nil
  deriving Repr, DecidableEq

/-! ## Insertion -/

/-- A node in front of others. -/
def Forest.push (word : String) (node : NestedNode) (rest : Forest) : Forest :=
  .cons word node.payload node.children rest

/-- Do something to the node of a word. If there is none, an empty one is made at its place. -/
def Forest.enter {α : Type} (word : String) (action : NestedNode → NestedNode × α) : Forest → Forest × α
  | .nil => (.push word (action {}).1 .nil, (action {}).2)
  | .cons w payload below rest =>
    if Ordered.stringBefore word w then
      (.push word (action {}).1 (.cons w payload below rest), (action {}).2)
    else if Ordered.stringBefore w word then
      (.cons w payload below (rest.enter word action).1, (rest.enter word action).2)
    else (.push w (action ⟨payload, below⟩).1 rest, (action ⟨payload, below⟩).2)

namespace NestedNode

/-- Walk down a path and do something to the node at its end. -/
def descend {α : Type} (action : NestedNode → NestedNode × α) : List String → NestedNode → NestedNode × α
  | [], node => action node
  | word :: path, node =>
    let (children, result) := node.children.enter word (descend action path)
    ({ node with children := children }, result)

/-- Put a declaration at a node, unless there is one. -/
def place (d : Declaration) (node : NestedNode) : NestedNode × Option BuildError :=
  match node.payload with
  | some existing => (node, some (CommandTree.duplicate existing d))
  | none => ({ node with payload := some d }, none)

end NestedNode

/-- What is declared of one command. -/
structure NestedEntry where
  /-- The command itself, and the nodes below it. -/
  node : NestedNode := {}
  /-- The packages of all functions that declare something of it, in ascending order. -/
  packages : List String := []
  deriving Repr, DecidableEq

/-- Everything declared, by command. -/
structure NestedTree where
  /-- The commands in ascending order of their names. -/
  commands : List (String × NestedEntry) := []
  /-- The number of declarations. -/
  declarations : Nat := 0
  deriving Repr, DecidableEq

namespace NestedTree

/-- What is declared of a command. -/
def entry (tree : NestedTree) (command : String) : NestedEntry :=
  (Ordered.find? command tree.commands).getD {}

/-- Add a declaration to a tree. If there is one at its path already, that one stays and the error is given; the
package of the function is noted in either case. -/
def insert (tree : NestedTree) (d : Declaration) : NestedTree × Option BuildError :=
  let entry := tree.entry d.command
  let (node, refused) := entry.node.descend (NestedNode.place d) d.path
  let packages := Ordered.insertDistinct Ordered.stringBefore d.binding.package entry.packages
  ({ commands := Ordered.put Ordered.stringBefore d.command ⟨node, packages⟩ tree.commands
     declarations := if refused.isNone then tree.declarations + 1 else tree.declarations }, refused)

/-- Add declarations one after another up to the first that is refused. -/
def insertAll (tree : NestedTree) : List Declaration → NestedTree × Option BuildError
  | [] => (tree, none)
  | d :: ds =>
    match tree.insert d with
    | (next, none) => insertAll next ds
    | (next, some error) => (next, some error)

end NestedTree

/-! ## Depth-first walks -/

/-- What a walk has laid out so far. -/
structure Layout where
  /-- The names that are left. -/
  pool : NamePool
  /-- The nodes in the order in which they are met. -/
  nodes : List Node := []
  deriving Repr, DecidableEq

namespace Layout

/-- Lay out a node behind the others. It has no children yet. -/
def add (layout : Layout) (command : String) (path : List String) (payload : Option Declaration)
    (parent : Option Nat) : Layout where
  pool := (layout.pool.allocate (nameSeed (path.getLastD "") payload)).2
  nodes := layout.nodes ++
    [{ id := layout.nodes.length
       name := path.getLastD ""
       path := path
       command := command
       structName := (layout.pool.allocate (nameSeed (path.getLastD "") payload)).1
       function := payload.map (·.binding)
       description := payload.bind (·.description)
       extendedHelp := payload.bind (·.extendedHelp)
       aliases := (payload.map (·.aliases)).getD []
       parameters := declaredBy (pathLabel command path) ((payload.map (·.parameters)).getD [])
       children := []
       parent := parent }]

/-- Write its children into a node. -/
def setChildren (layout : Layout) (id : Nat) (children : List Nat) : Layout where
  pool := layout.pool
  nodes := layout.nodes.modify id fun node => { node with children := children }

end Layout

/-- Lay out nodes beside each other that stand below a path, each before the nodes below it. The result are their
numbers. -/
def Forest.visit (command : String) (path : List String) (parent : Option Nat) :
    Forest → Layout → List Nat × Layout
  | .nil, layout => ([], layout)
  | .cons word payload below rest, layout =>
    let id := layout.nodes.length
    let (children, inner) :=
      below.visit command (path ++ [word]) (some id) (layout.add command (path ++ [word]) payload parent)
    let (ids, outer) := rest.visit command path parent (inner.setChildren id children)
    (id :: ids, outer)

namespace NestedEntry

/-- The package a command is generated for: that of its function, or else the first of all. -/
def package? (entry : NestedEntry) : Option String :=
  (entry.node.payload.map (·.binding.package)).or entry.packages.head?

/-- A command before the parameters of its nodes are completed. -/
def row (entry : NestedEntry) (command : String) (reserved : List String) : Command :=
  let root := entry.node.payload
  let named := (NamePool.withReserved reserved).allocate (nameSeed command root)
  let walked := entry.node.children.visit command [] none { pool := named.2 }
  { name := command
    package := entry.package?
    structName := named.1
    function := root.map (·.binding)
    description := root.bind (·.description)
    extendedHelp := root.bind (·.extendedHelp)
    parameters := declaredBy command ((root.map (·.parameters)).getD [])
    children := walked.1
    nodes := walked.2.nodes }

/-- The command of an entry. -/
def flatten (entry : NestedEntry) (command : String) (reserved : List String) : Except BuildError Command :=
  (entry.row command reserved).resolve.map Command.inherit

end NestedEntry

/-- The model of a nested tree, with names that are not to be generated. -/
def NestedTree.flatten (tree : NestedTree) (reserved : List String) : Except BuildError Model := do
  let commands ← tree.commands.mapM fun entry => NestedEntry.flatten entry.2 entry.1 reserved
  return Model.ofCommands commands

end CommandDoc
