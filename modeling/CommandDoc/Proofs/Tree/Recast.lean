import Mathlib.Data.List.Basic
import CommandDoc.Model.Validation
import CommandDoc.Tree.Flatten

/-!
# Packages and generated names

The package that a command is generated for and the names that are generated for it and its nodes say how the
program is written down, and not what it does.  No pass over a command looks at them, and neither does the
check of a model: each of these operations gives the same, up to that change, for a command in which they are
changed.

Main definitions:

- `Node.rename` and `Command.recast`: a node and a command with other generated names, and with another
  package.

Main results:

- Theorem `Command.resolve_recast`: parameters are completed alike.
- Theorem `Command.inherit_recast`: they are handed down alike.
- Theorem `Command.faults_recast`: the same faults are found.
-/

namespace CommandDoc

/-- A node with its generated name changed. -/
def Node.rename (change : String → String) (node : Node) : Node :=
  { node with structName := change node.structName }

/-- A command that is generated for another package and under other names. -/
def Command.recast (package : Option String → Option String) (change : String → String)
    (command : Command) : Command :=
  { command with
    package := package command.package
    structName := change command.structName
    nodes := command.nodes.map (Node.rename change) }

namespace Command

variable (package : Option String → Option String) (change : String → String) (command : Command)

/-! ## Nodes of a command -/

/-- A node is found by the same id. -/
theorem node?_recast (id : Nat) :
    (command.recast package change).node? id = (command.node? id).map (Node.rename change) :=
  List.getElem?_map ..

theorem nodesAt_recast (ids : List Nat) :
    (command.recast package change).nodesAt ids = (command.nodesAt ids).map (Node.rename change) := by
  rw [nodesAt, nodesAt, List.map_filterMap]
  exact List.filterMap_congr fun id _ => command.node?_recast package change id

theorem parentOf?_recast (node : Node) :
    (command.recast package change).parentOf? (node.rename change)
      = (command.parentOf? node).map (Node.rename change) := by
  rw [parentOf?, parentOf?, Option.map_bind]
  exact congrArg _ (funext (command.node?_recast package change))

theorem ancestorsWithin_recast (fuel : Nat) (node : Node) :
    (command.recast package change).ancestorsWithin fuel (node.rename change)
      = (command.ancestorsWithin fuel node).map (Node.rename change) := by
  induction fuel generalizing node with
  | zero => rfl
  | succ fuel ih =>
    rw [ancestorsWithin, ancestorsWithin, parentOf?_recast]
    cases command.parentOf? node with
    | none => rfl
    | some parent => exact congrArg (parent.rename change :: ·) (ih parent)

/-- The nodes above a node are the same, renamed. -/
theorem ancestors_recast (node : Node) :
    (command.recast package change).ancestors (node.rename change)
      = (command.ancestors node).map (Node.rename change) := by
  have hlength : (command.recast package change).nodes.length = command.nodes.length := List.length_map ..
  rw [ancestors, ancestors, hlength, ancestorsWithin_recast]

/-! ## Parameters declared above -/

/-- The parameters above a node do not depend on the names. -/
theorem parametersAbove_recast (node : Node) :
    (command.recast package change).parametersAbove (node.rename change)
      = command.parametersAbove node := by
  rw [parametersAbove, parametersAbove, ancestors_recast, List.map_map]
  rfl

/-- The parameters of nodes are completed alike, from the same nodes on. -/
theorem resolveNodes_recast (done rest : List Node) :
    resolveNodes (command.recast package change) (done.map (Node.rename change))
        (rest.map (Node.rename change))
      = (resolveNodes command done rest).map (List.map (Node.rename change)) := by
  induction rest generalizing done with
  | nil => rfl
  | cons node rest ih =>
    have habove : { command.recast package change with
          nodes := done.map (Node.rename change) }.parametersAbove (node.rename change)
        = { command with nodes := done }.parametersAbove node :=
      parametersAbove_recast package change { command with nodes := done } node
    have hstep : ∀ parameters, resolveNodes (command.recast package change)
          (done.map (Node.rename change) ++ [{ node.rename change with parameters := parameters }])
          (rest.map (Node.rename change))
        = (resolveNodes command (done ++ [{ node with parameters := parameters }]) rest).map
            (List.map (Node.rename change)) := by
      intro parameters
      rw [← ih, List.map_append]
      rfl
    rw [List.map_cons, resolveNodes, resolveNodes, habove]
    change (node.parameters.mapM (resolveParameter node.label _) >>= fun parameters => _) = _
    cases node.parameters.mapM (resolveParameter node.label
      ({ command with nodes := done }.parametersAbove node)) with
    | error e => rfl
    | ok parameters => exact hstep parameters

/-- Completing deferred parameters and renaming can be done in either order. -/
theorem resolve_recast :
    (command.recast package change).resolve = command.resolve.map (recast package change) := by
  have hparameters : (command.recast package change).parameters = command.parameters := rfl
  have hnodes : resolveNodes (command.recast package change) [] (command.recast package change).nodes
      = (resolveNodes command [] command.nodes).map (List.map (Node.rename change)) :=
    command.resolveNodes_recast package change [] command.nodes
  unfold resolve
  rw [hparameters, hnodes]
  cases command.parameters.find? (·.fromParent) with
  | some p => rfl
  | none =>
    cases resolveNodes command [] command.nodes with
    | error e => rfl
    | ok nodes => rfl

/-! ## Parameters handed down -/

/-- A node is handed down the same parameters. -/
theorem withInherited_recast (node : Node) :
    (command.recast package change).withInherited (node.rename change)
      = (command.withInherited node).rename change := by
  have hscopes : (command.recast package change).scopesAbove (node.rename change)
      = command.scopesAbove node := by
    rw [scopesAbove, scopesAbove, ancestors_recast, List.map_map]
    rfl
  rw [withInherited, hscopes]
  rfl

/-- Handing parameters down and renaming can be done in either order. -/
theorem inherit_recast :
    (command.recast package change).inherit = command.inherit.recast package change := by
  have hnodes : (command.nodes.map (Node.rename change)).map
        (command.recast package change).withInherited
      = (command.nodes.map command.withInherited).map (Node.rename change) := by
    rw [List.map_map, List.map_map]
    exact List.map_congr_left fun node _ => command.withInherited_recast package change node
  rw [inherit, inherit, recast, recast, ← hnodes]
  rfl

/-! ## Faults -/

/-- The ids refer to nodes, or to none, as before. -/
theorem isDangling_recast : (command.recast package change).isDangling = command.isDangling := by
  have hreferences : (command.recast package change).references = command.references := by
    rw [references, references, recast, List.flatMap_map, List.filterMap_map]
    rfl
  rw [isDangling, isDangling, hreferences]
  simp only [node?_recast, Option.isNone_map]

theorem siblingFaults_rename (path : String) (siblings : List Node) :
    siblingFaults path (siblings.map (Node.rename change)) = siblingFaults path siblings := by
  rw [siblingFaults, siblingFaults, List.flatMap_map]
  rfl

/-- The faults of a node do not depend on the names. -/
theorem nodeFaults_recast (node : Node) :
    (command.recast package change).nodeFaults (node.rename change) = command.nodeFaults node := by
  rw [nodeFaults, nodeFaults, childNodesOf, nodesAt_recast, siblingFaults_rename]
  rfl

/-- The same faults are found whatever a command is generated for. -/
theorem faults_recast : (command.recast package change).faults = command.faults := by
  have hroots : siblingFaults command.name (command.recast package change).childNodes
      = siblingFaults command.name command.childNodes := by
    rw [childNodes, nodesAt_recast, siblingFaults_rename]
    rfl
  have hnodes : (command.recast package change).nodes.flatMap (command.recast package change).nodeFaults
      = command.nodes.flatMap command.nodeFaults := by
    rw [recast, List.flatMap_map]
    exact List.flatMap_congr fun node _ => command.nodeFaults_recast package change node
  rw [faults, faults, isDangling_recast, hnodes]
  change (if _ then _ else if _ then _ else _ ++ siblingFaults command.name _ ++ _) = _
  rw [hroots]
  rfl

end Command

end CommandDoc
