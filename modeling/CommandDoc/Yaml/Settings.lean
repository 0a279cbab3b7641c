import CommandDoc.Build.Basic
import CommandDoc.Yaml.Composition
import CommandDoc.Yaml.Scalar

/-!
# Settings from YAML

A settings file is read by what is expected in it: where a text has to stand, a plain text is taken as it
is written, even if it looks like a number.

Main definitions:

- `Settings.ofYaml?`: the settings of a file.
-/

namespace CommandDoc.Settings

open Yaml (Scalar)

/-- A text, written in any way. -/
def textOf? (document : Yaml.Document) (node : Yaml.Node) : Option String := do
  match ← document.content? node with
  | .scalar text _ => return String.ofList text
  | _ => none

/-- Names in a list, of which there are none at a missing node. -/
def namesOf? (document : Yaml.Document) (node : Yaml.Node) : Option (List String) := do
  match ← document.content? node with
  | .list items => items.mapM (textOf? document)
  | .scalar [] true => return []
  | _ => none

/-- A truth value. -/
def flagOf? (document : Yaml.Document) (node : Yaml.Node) : Option Bool := do
  match ← document.content? node with
  | .scalar text true => Scalar.boolOf? (String.ofList text)
  | _ => none

/-- A count of at most 64 bits, or none. -/
def countOf? (document : Yaml.Document) (node : Yaml.Node) : Option (Option Nat) := do
  match ← document.content? node with
  | .scalar text true =>
    if Scalar.nullWords.contains (String.ofList text) then return none
    else
      match Scalar.integer? text with
      | some (false, n) => if n < Nat.pow 2 64 then return some n else none
      | _ => none
  | _ => none

/-- The value with a key; `none` if the key is given twice. -/
def entryOf? (entries : List (String × Yaml.Node)) (key : String) : Option (Option Yaml.Node) :=
  match entries.filter (·.1 == key) with
  | [] => some none
  | [entry] => some (some entry.2)
  | _ => none

/-- The value with a key, read if it is there. -/
def readAt? {α : Type} (entries : List (String × Yaml.Node)) (key : String) (read : Yaml.Node → Option α)
    (missing : α) : Option α := do
  match ← entryOf? entries key with
  | some node => read node
  | none => return missing

/-- The settings in a document. Other keys are ignored, and so is whatever they refer to. -/
def ofDocument? (document : Yaml.Document) : Option Settings :=
  match document.root with
  | .map entries => do
    let readKey (entry : Yaml.Node × Yaml.Node) : Option (String × Yaml.Node) :=
      (textOf? document entry.1).map fun key => (key, entry.2)
    let entries ← entries.mapM readKey
    return {
      reservedNames := ← readAt? entries "reserved_names" (namesOf? document) []
      strict := ← readAt? entries "strict" (flagOf? document) false
      jobs := ← readAt? entries "jobs" (countOf? document) none }
  | .scalar [] true => some {}
  | _ => none

/-- The settings of a file. In a file without a document nothing is set. -/
def ofYaml? (text : String) : Option Settings := do
  match ← Yaml.Document.ofText? text with
  | some document => ofDocument? document
  | none => return {}

end CommandDoc.Settings
