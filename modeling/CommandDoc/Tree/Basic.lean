import CommandDoc.Declaration

/-!
# Command trees

Declarations are collected by command and by path. A path that is only the start of other paths is there
too, without a declaration. As paths stand in lexicographic order, a subcommand comes right before the
subcommands below it.

Main definitions:

- `CommandTree` and `Branch`.
- `CommandTree.insert` adds a declaration, or says why it does not.
-/

namespace CommandDoc

/-- The order of paths: word by word, a path before the longer ones that it starts. -/
def pathBefore (p q : List String) : Bool :=
  decide (p < q)

/-- The starts of a path with at least one word, the shortest first. -/
def starts : List String → List (List String)
  | [] => []
  | word :: rest => [word] :: (starts rest).map (word :: ·)

/-- What is declared of one command. -/
structure Branch where
  /-- The declaration of the command itself. -/
  root : Option Declaration := none
  /-- The packages of all functions that declare something of it, in ascending order. -/
  packages : List String := []
  /-- Every path below it in ascending order, with the declaration at it. -/
  nodes : List (List String × Option Declaration) := []
  deriving Repr, DecidableEq

namespace Branch

/-- The declaration at a path; the empty path is the command itself. -/
def declared? (branch : Branch) (path : List String) : Option Declaration :=
  if path.isEmpty then branch.root else (Ordered.find? path branch.nodes).join

/-- Make sure that a path is there. -/
def touch (nodes : List (List String × Option Declaration)) (path : List String) :
    List (List String × Option Declaration) :=
  Ordered.update pathBefore path (fun present => present.getD none) nodes

/-- Make sure that a path and its starts are there. -/
def grow (branch : Branch) (path : List String) : Branch :=
  { branch with nodes := (starts path).foldl touch branch.nodes }

/-- Note a package. -/
def notePackage (branch : Branch) (package : String) : Branch :=
  { branch with packages := Ordered.insertDistinct Ordered.stringBefore package branch.packages }

/-- Put a declaration at its path, which nothing is declared at. -/
def place (branch : Branch) (d : Declaration) : Branch :=
  if d.path.isEmpty then { branch with root := some d }
  else { branch with nodes := Ordered.put pathBefore d.path (some d) branch.nodes }

/-- The declarations, from the root on. -/
def declarations (branch : Branch) : List Declaration :=
  branch.root.toList ++ branch.nodes.filterMap (·.2)

end Branch

/-- Everything declared, by command. -/
structure CommandTree where
  /-- The commands in ascending order of their names. -/
  commands : List (String × Branch) := []
  deriving Repr, DecidableEq

namespace CommandTree

/-- What is declared of a command. -/
def branch (tree : CommandTree) (command : String) : Branch :=
  (Ordered.find? command tree.commands).getD {}

/-- The declarations of all commands. -/
def declarations (tree : CommandTree) : List Declaration :=
  tree.commands.flatMap (·.2.declarations)

/-- The number of declarations. -/
def size (tree : CommandTree) : Nat :=
  tree.declarations.length

/-- The error about two declarations at one path. -/
def duplicate (existing incoming : Declaration) : BuildError :=
  .duplicateDefinition incoming.label existing.binding.origin incoming.binding.origin

/-- Add a declaration to a tree. If there is one at its path already, that one stays and the error is
given; the package of the function is noted in either case. -/
def insert (tree : CommandTree) (d : Declaration) : CommandTree × Option BuildError :=
  let noted := ((tree.branch d.command).notePackage d.binding.package).grow d.path
  match noted.declared? d.path with
  | some existing =>
    (⟨Ordered.put Ordered.stringBefore d.command noted tree.commands⟩, some (duplicate existing d))
  | none => (⟨Ordered.put Ordered.stringBefore d.command (noted.place d) tree.commands⟩, none)

/-- Add declarations one after another up to the first that is refused. -/
def insertAll (tree : CommandTree) : List Declaration → CommandTree × Option BuildError
  | [] => (tree, none)
  | d :: ds =>
    match tree.insert d with
    | (next, none) => insertAll next ds
    | (next, some error) => (next, some error)

end CommandTree

end CommandDoc
