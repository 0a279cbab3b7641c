import CommandDoc.Yaml.Node
import CommandDoc.Yaml.Token

/-!
# Documents from tokens

The tokens of a text are put together to the tree of its only document.

A name gets the number of different names that were given before it, so a name that is given again gets
a number of its own, which the next new name shares. A reference has the number that its name has at its
place, and finds what has this number at the end of the document.

Main definitions:

- `Composition`: the tokens that are left and the names given so far.
- `Document.ofTokens?` and `Document.ofText?`: the only document of a text.
-/

namespace CommandDoc.Yaml

/-- What is allowed at a place besides texts and collections in brackets. -/
inductive Layout where
  /-- Nothing, as the place is in brackets. -/
  | flow
  /-- Indented collections. -/
  | block
  /-- Indented collections, and lists whose dashes are not indented. -/
  | blockOrDashes
  deriving Repr, DecidableEq

/-- The tokens that are left, and the names given so far. -/
structure Composition where
  /-- The tokens that are left. -/
  tokens : List Token
  /-- The different names with their numbers. -/
  names : List (List Char × Nat) := []
  /-- The named nodes with their numbers, the last one first. One that is not over is still blank. -/
  named : List (Nat × Node) := []
  deriving Repr

namespace Composition

/-- Whether the next token is a certain one. -/
def sees (state : Composition) (token : Token) : Bool :=
  state.tokens.head? == some token

/-- Whether the next token is one of a list. -/
def seesAny (state : Composition) (tokens : List Token) : Bool :=
  (state.tokens.head?.map tokens.contains).getD false

/-- Go on behind the next token. -/
def skip (state : Composition) : Composition :=
  { state with tokens := state.tokens.drop 1 }

/-- Read the name in front of a node and number it. -/
def takeName (state : Composition) : Option Nat × Composition :=
  match state.tokens with
  | .anchor name :: tokens =>
    let number := state.names.length
    let names := (name, number) :: state.names.filter (·.1 != name)
    (some number, { tokens, names, named := (number, .blank) :: state.named })
  | _ => (none, state)

/-- Note what has the number that was given behind the first `index` ones. -/
def register (state : Composition) (index : Nat) (number : Option Nat) (node : Node) : Composition :=
  match number with
  | some number => { state with named := state.named.set (state.named.length - 1 - index) (number, node) }
  | none => state

/-- The number that a name has. -/
def numberOf? (state : Composition) (name : List Char) : Option Nat :=
  (state.names.find? (·.1 == name)).map Prod.snd

/-- Go over the comma before all but the first entry in brackets. Before a closing bracket there need not
be one. -/
def skipComma? (state : Composition) (first : Bool) (closing : Token) : Option Composition :=
  if first || state.sees closing then some state
  else if state.sees .comma then some state.skip
  else none

mutual

/-- Read a node. -/
def node? : Nat → Layout → Composition → Option (Node × Composition)
  | 0, _, _ => none
  | fuel + 1, layout, state =>
    match state.tokens with
    | .reference name :: _ => (state.numberOf? name).map fun number => (.reference number, state.skip)
    | _ => do
      let (number, start) := state.takeName
      let inner := start.skip
      let (node, next) ← match start.tokens with
        | .scalar text plain :: _ => some (.scalar text plain, inner)
        | .flowListStart :: _ => (flowItems? fuel true inner).map fun (items, next) => (.list items, next)
        | .flowMapStart :: _ =>
          (flowEntries? fuel true inner).map fun (entries, next) => (.map entries, next)
        | token :: _ =>
          if token == .dash && layout == .blockOrDashes then
            (dashes? fuel start).map fun (items, next) => (.list items, next)
          else if token == .blockListStart && layout != .flow then
            (blockItems? fuel inner).map fun (items, next) => (.list items, next)
          else if token == .blockMapStart && layout != .flow then
            (blockEntries? fuel inner).map fun (entries, next) => (.map entries, next)
          else if number.isSome then some (.blank, start)
          else none
        | [] => if number.isSome then some (.blank, start) else none
      return (node, next.register state.named.length number node)

/-- Read a node that is missing if one of some tokens comes next. -/
def nodeBefore? : Nat → Layout → List Token → Composition → Option (Node × Composition)
  | 0, _, _, _ => none
  | fuel + 1, layout, stops, state =>
    if state.seesAny stops then some (.blank, state) else node? fuel layout state

/-- Read the colon and the node behind it; both can be missing. -/
def value? : Nat → Layout → List Token → Composition → Option (Node × Composition)
  | 0, _, _, _ => none
  | fuel + 1, layout, stops, state =>
    if state.sees .value then nodeBefore? fuel layout stops state.skip else some (.blank, state)

/-- Read the entries of an indented list. -/
def blockItems? : Nat → Composition → Option (List Node × Composition)
  | 0, _ => none
  | fuel + 1, state =>
    if state.sees .blockEnd then some ([], state.skip)
    else if state.sees .dash then do
      let (item, next) ← nodeBefore? fuel .block [.dash, .blockEnd] state.skip
      let (items, last) ← blockItems? fuel next
      return (item :: items, last)
    else none

/-- Read the entries of a list whose dashes are not indented. -/
def dashes? : Nat → Composition → Option (List Node × Composition)
  | 0, _ => none
  | fuel + 1, state =>
    if state.sees .dash then do
      let (item, next) ← nodeBefore? fuel .block [.dash, .key, .value, .blockEnd] state.skip
      let (items, last) ← dashes? fuel next
      return (item :: items, last)
    else some ([], state)

/-- Read the entries of an indented map. -/
def blockEntries? : Nat → Composition → Option (List (Node × Node) × Composition)
  | 0, _ => none
  | fuel + 1, state =>
    if state.sees .blockEnd then some ([], state.skip)
    else if state.sees .key then do
      let stops := [.key, .value, .blockEnd]
      let (key, keyed) ← nodeBefore? fuel .blockOrDashes stops state.skip
      let (value, next) ← value? fuel .blockOrDashes stops keyed
      let (entries, last) ← blockEntries? fuel next
      return ((key, value) :: entries, last)
    else none

/-- Read the entries of a list in brackets. An entry with a colon is a map with a single key. If a key
mark has no key behind it, the token there is passed over. -/
def flowItems? : Nat → Bool → Composition → Option (List Node × Composition)
  | 0, _, _ => none
  | fuel + 1, first, state => do
    let start ← state.skipComma? first .flowListEnd
    if start.sees .flowListEnd then return ([], start.skip)
    else
      let (item, next) ←
        if start.sees .key then do
          let inner := start.skip
          let (key, keyed) ←
            if inner.seesAny [.value, .comma, .flowListEnd] then some (.blank, inner.skip)
            else node? fuel .flow inner
          let (value, next) ← value? fuel .flow [.comma, .flowListEnd] keyed
          some (.map [(key, value)], next)
        else node? fuel .flow start
      let (items, last) ← flowItems? fuel false next
      return (item :: items, last)

/-- Read the entries of a map in braces. An entry without a key mark is a key without a value. -/
def flowEntries? : Nat → Bool → Composition → Option (List (Node × Node) × Composition)
  | 0, _, _ => none
  | fuel + 1, first, state => do
    let start ← state.skipComma? first .flowMapEnd
    if start.sees .flowMapEnd then return ([], start.skip)
    else
      let (entry, next) ←
        if start.sees .key then do
          let (key, keyed) ← nodeBefore? fuel .flow [.value, .comma, .flowMapEnd] start.skip
          let (value, next) ← value? fuel .flow [.comma, .flowMapEnd] keyed
          some ((key, value), next)
        else (node? fuel .flow start).map fun (key, next) => ((key, .blank), next)
      let (entries, last) ← flowEntries? fuel false next
      return (entry :: entries, last)

end

end Composition

namespace Document

/-- A document at the start of some tokens, and the tokens behind it. -/
def compose? (tokens : List Token) : Option (Document × List Token) :=
  (Composition.node? (4 * tokens.length + 4) .block ⟨tokens, [], []⟩).map fun (root, next) =>
    (⟨root, next.named⟩, next.tokens)

/-- Whether no document is left before the next marker. -/
def isOver (tokens : List Token) : Bool :=
  tokens.isEmpty || tokens.head? == some .documentStart || tokens.head? == some .documentEnd

/-- The only document of a text, which is absent if there are no tokens. A marker can stand before it, with
or without a node behind, and more of them after its end. -/
def ofTokens? (tokens : List Token) : Option (Option Document) :=
  match tokens with
  | [] => some none
  | first :: content => do
    let marked := first == .documentStart
    let (document, rest) ←
      if marked && isOver content then some (⟨.blank, []⟩, content)
      else compose? (if marked then content else tokens)
    if rest.all (· == .documentEnd) then some (some document) else none

/-- The only document of a text. -/
def ofText? (text : String) : Option (Option Document) :=
  (Token.ofText? text).bind ofTokens?

end Document

end CommandDoc.Yaml
