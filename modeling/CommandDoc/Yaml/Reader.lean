import CommandDoc.Data.Basic
import CommandDoc.Yaml.Composition
import CommandDoc.Yaml.Scalar

/-!
# Reading YAML

The document of a YAML text as a data tree. Plain texts become the values they stand for, and references
become copies of what they refer to. Lists and maps can be nested at most 128 deep, which also ends the
reading of a node that refers to itself. So that a small document cannot stand for an enormous tree, at most
a hundred references are followed for every part of it.

Main definitions:

- `Document.toData?` and `Document.data?`: the data tree of a node and of a document.
- `read?`: the data tree of a text.
-/

namespace CommandDoc.Yaml

namespace Node

/-- The value of a text. An integer that does not fit into 64 bits is refused. -/
def scalarData? (text : String) (plain : Bool) : Option Data :=
  if plain then
    match Scalar.ofPlain text with
    | .null => some .null
    | .bool b => some (.bool b)
    | .nat n => some (.nat n)
    | .minus n => some (.minus n)
    | .wide => none
    | .decimal => some (.decimal text)
    | .text => some (.text text)
  else some (.text text)

/-- The key that a value stands for. -/
def keyOf : Data → Key
  | .text s => .name s
  | .nat n => .index n
  | _ => .odd

end Node

namespace Document

/-- A reading of a document that follows references. The state is the number of references that can still
be followed. -/
abbrev Following (α : Type) : Type :=
  StateT Nat Option α

/-- What stands at a node. -/
def follow (document : Document) (node : Node) : Following Node := do
  match node with
  | .reference _ =>
    match ← get with
    | 0 => failure
    | left + 1 =>
      set left
      document.content? node
  | _ => return node

/-- The data tree of a node with at most the given depth. -/
def toData? (document : Document) : Nat → Node → Following Data
  | depth, node => do
    match ← document.follow node with
    | .scalar text plain => Node.scalarData? (String.ofList text) plain
    | .list items =>
      match depth with
      | 0 => failure
      | depth + 1 => return .list (← items.mapM (document.toData? depth))
    | .map entries =>
      match depth with
      | 0 => failure
      | depth + 1 =>
        let readEntry (entry : Node × Node) : Following (Key × Data) := do
          return (Node.keyOf (← document.toData? depth entry.1), ← document.toData? depth entry.2)
        return .record (← entries.mapM readEntry)
    | .reference _ => failure

/-- The data tree of a document. -/
def data? (document : Document) : Option Data :=
  (document.toData? 128 document.root).run' (100 * document.root.size)

end Document

/-- The data tree of a text. A text without a document stands for no value. -/
def read? (text : String) : Option Data := do
  match ← Document.ofText? text with
  | some document => document.data?
  | none => return .null

end CommandDoc.Yaml
