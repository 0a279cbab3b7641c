import CommandDoc.Model.Basic

/-!
# Valid models

What has to hold of a model before code is generated from it: commands have different names that are not
blank, numbers point to nodes, repeated parameters are arguments, positions are different and not zero, no
flag is visible twice at one place, and no word names two siblings.

Main definitions:

- `Fault`: one violation, with `Fault.message`.
- `Command.faults` and `Model.faults`: every violation, in a fixed order.
-/

namespace CommandDoc

/-! ## Faults -/

/-- A violation of what a model has to satisfy. -/
inductive Fault where
  /-- A command name is blank. -/
  | emptyCommandName
  /-- Two commands have one name. -/
  | duplicateCommand (name : String)
  /-- A repeated parameter is a flag. -/
  | varargNotPositional (path parameter : String)
  /-- Two arguments have one position. -/
  | duplicatePosition (path : String) (position : UInt32)
  /-- An argument has position zero. -/
  | zeroPosition (path parameter : String)
  /-- A flag is visible twice. -/
  | duplicateFlag (path flag : String)
  /-- A word names two siblings. -/
  | aliasCollision (path word : String)
  /-- A number points to no node. -/
  | danglingNode (command : String)
  deriving Repr, DecidableEq

/-- What is said about a fault. -/
def Fault.message : Fault → String
  | emptyCommandName => "command name cannot be empty"
  | duplicateCommand name => "duplicate command in model: " ++ name
  | varargNotPositional path parameter =>
    "vararg parameter '" ++ parameter ++ "' of '" ++ path ++ "' must be positional"
  | duplicatePosition path position =>
    "duplicate positional index " ++ toString position.toNat ++ " in '" ++ path ++ "'"
  | zeroPosition path parameter =>
    "positional parameter '" ++ parameter ++ "' of '" ++ path ++ "' has index 0"
  | duplicateFlag path flag => "duplicate flag '" ++ flag ++ "' visible in '" ++ path ++ "'"
  | aliasCollision path word =>
    "'" ++ word ++ "' names more than one subcommand under '" ++ path ++ "'"
  | danglingNode command => "dangling node reference in '" ++ command ++ "'"

/-! ## Repetition -/

/-- The elements of a list that occur in `seen` or earlier in the list, each time that they do. -/
def repeatedAfter {α : Type} [BEq α] (seen : List α) : List α → List α
  | [] => []
  | x :: xs =>
    if seen.contains x then x :: repeatedAfter seen xs else repeatedAfter (x :: seen) xs

/-- The elements of a list that occur earlier in it, each time that they do. -/
def repeated {α : Type} [BEq α] (xs : List α) : List α :=
  repeatedAfter [] xs

/-! ## One scope -/

/-- The position a parameter takes among the arguments. -/
def Parameter.takenPosition? (p : Parameter) : Option UInt32 :=
  if p.positional then p.position else none

/-- The faults of single parameters and of their positions, where `taken` are the positions before. -/
def positionFaults (path : String) (taken : List UInt32) : List Parameter → List Fault
  | [] => []
  | p :: parameters =>
    let vararg := if p.vararg && !p.positional then [Fault.varargNotPositional path p.name] else []
    match p.takenPosition? with
    | none => vararg ++ positionFaults path taken parameters
    | some position =>
      if position == 0 then
        vararg ++ Fault.zeroPosition path p.name :: positionFaults path taken parameters
      else if taken.contains position then
        vararg ++ Fault.duplicatePosition path position :: positionFaults path taken parameters
      else vararg ++ positionFaults path (position :: taken) parameters

/-- The flag names of the parameters that are flags. -/
def flagNamesOf (parameters : List Parameter) : List String :=
  (parameters.filter Parameter.isFlag).flatMap Parameter.flagNames

/-- The flag names that a scope brings itself; parameters declared above bring none. -/
def ownFlagNames (parameters : List Parameter) : List String :=
  flagNamesOf (parameters.filter fun p => !p.fromParent)

/-- The faults of the parameters of one command or node. -/
def parameterFaults (path : String) (parameters : List Parameter) : List Fault :=
  positionFaults path [] parameters
    ++ (repeated (ownFlagNames parameters)).map (Fault.duplicateFlag path)

/-- The flag names that the commands above hand down to a node. -/
def Node.inheritedFlagNames (node : Node) : List String :=
  node.inherited.flatMap fun group => flagNamesOf group.parameters

/-- Handed down flag names that are visible more than once at a node, in ascending order. -/
def Node.flagClashes (node : Node) : List String :=
  let visible := ownFlagNames node.parameters ++ node.inheritedFlagNames
  Ordered.sortStrings (node.inheritedFlagNames.filter fun flag => 1 < visible.count flag)

/-- The words that name a node. -/
def Node.words (node : Node) : List String :=
  node.name :: node.aliases

/-- The faults of siblings: words that name two of them. -/
def siblingFaults (path : String) (siblings : List Node) : List Fault :=
  (repeated (siblings.flatMap Node.words)).map (Fault.aliasCollision path)

/-! ## Commands and models -/

namespace Command

/-- Every number by which a command or one of its nodes points to a node. -/
def references (command : Command) : List Nat :=
  command.children ++ command.nodes.flatMap (·.children) ++ command.nodes.filterMap (·.parent)

/-- Whether a number points to no node. -/
def isDangling (command : Command) : Bool :=
  command.references.any fun id => (command.node? id).isNone

/-- The faults of one node. -/
def nodeFaults (command : Command) (node : Node) : List Fault :=
  parameterFaults node.label node.parameters
    ++ node.flagClashes.map (Fault.duplicateFlag node.label)
    ++ siblingFaults node.label (command.childNodesOf node)

/-- The faults of a command. A blank name, or else a number that points to no node, is the only one
reported. -/
def faults (command : Command) : List Fault :=
  if Text.isBlankText command.name.toList then [.emptyCommandName]
  else if command.isDangling then [.danglingNode command.name]
  else
    parameterFaults command.name command.parameters
      ++ siblingFaults command.name command.childNodes
      ++ command.nodes.flatMap command.nodeFaults

end Command

/-- The faults of commands of which none may have a name in `seen`. A command with a name seen before is
not looked at any further. -/
def commandFaults (seen : List String) : List Command → List Fault
  | [] => []
  | command :: commands =>
    if seen.contains command.name then
      Fault.duplicateCommand command.name :: commandFaults seen commands
    else command.faults ++ commandFaults (command.name :: seen) commands

/-- The faults of a model, in a fixed order. -/
def Model.faults (model : Model) : List Fault :=
  commandFaults [] model.commands

end CommandDoc
