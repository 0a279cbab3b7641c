/-!
# Documents of YAML

A document is a tree of texts. What a plain text stands for is not yet decided in it, since that hangs on
what is expected at its place. Nodes can be named; where such a name is used again, the tree has a
reference.

Main definitions:

- `Node` with `Node.size`.
- `Document` with `Document.content?`: what stands at a node, or at the end of a reference.
-/

namespace CommandDoc.Yaml

/-! ## Nodes -/

/-- A tree of texts. -/
inductive Node where
  /-- A text, written plain or not. -/
  | scalar (text : List Char) (plain : Bool)
  /-- A list. -/
  | list (items : List Node)
  /-- Keys with their values, in order. -/
  | map (entries : List (Node × Node))
  /-- A named node, by the number of its name. -/
  | reference (number : Nat)
  deriving Repr

namespace Node

/-- The plain text that stands where a node is missing. -/
def blank : Node :=
  .scalar [] true

mutual

/-- The number of parts of a node: a text or a reference is one, and a list or a map has two ends. -/
def size : Node → Nat
  | .scalar _ _ => 1
  | .list items => sizeOfItems items + 2
  | .map entries => sizeOfEntries entries + 2
  | .reference _ => 1

/-- The number of parts of all items. -/
def sizeOfItems : List Node → Nat
  | [] => 0
  | item :: items => item.size + sizeOfItems items

/-- The number of parts of all keys and values. -/
def sizeOfEntries : List (Node × Node) → Nat
  | [] => 0
  | (key, value) :: entries => key.size + value.size + sizeOfEntries entries

end

end Node

/-! ## Documents -/

/-- A tree and the nodes that have a name in it. -/
structure Document where
  /-- The tree. -/
  root : Node
  /-- The named nodes, each with its number, the last one first. If two of them have the same number, it
  stands for the last one. -/
  named : List (Nat × Node)
  deriving Repr

namespace Document

/-- The node that a number stands for. -/
def find? (document : Document) (number : Nat) : Option Node :=
  (document.named.find? (·.1 == number)).map Prod.snd

/-- What stands at a node, which a reference takes from another place. -/
def content? (document : Document) : Node → Option Node
  | .reference number => document.find? number
  | node => some node

end Document

end CommandDoc.Yaml
