import CommandDoc.Bundle
import CommandDoc.Data.Param

/-!
# Models and reports as data

Main definitions:

- `toData` and `ofData?` for nodes, commands, models, warnings and reports.
- `Bundle.toData`.
-/

namespace CommandDoc

/-! ## Models -/

/-- A list of parameters, read. -/
def Data.asParameters? (value : Data) : Option (List Parameter) :=
  value.asList? Parameter.ofData?

/-- A list of node numbers, read. -/
def Data.asIds? (value : Data) : Option (List Nat) :=
  value.asList? Data.asCount?

namespace InheritedGroup

/-- The tree of a group. -/
def toData (g : InheritedGroup) : Data :=
  .ofFields
    [.present "declared_by" (.text g.declaredBy),
      .present "parameters" (.list (g.parameters.map Parameter.toData))]

/-- Read a group. -/
def ofData? (value : Data) : Option InheritedGroup := do
  let [declaredBy, parameters] ← value.slots? ["declared_by", "parameters"] | none
  return {
    declaredBy := ← Data.need Data.asText? declaredBy
    parameters := ← Data.need Data.asParameters? parameters }

end InheritedGroup

namespace Node

/-- The tree of a node. -/
def toData (n : Node) : Data :=
  .ofFields
    [.present "id" (.nat n.id), .present "name" (.text n.name), .present "path" (.texts n.path),
      .present "command" (.text n.command), .present "struct_name" (.text n.structName),
      .optional "function" Binding.toData n.function, .optional "description" .text n.description,
      .optional "extended_help" .text n.extendedHelp, .present "aliases" (.texts n.aliases),
      .present "parameters" (.list (n.parameters.map Parameter.toData)),
      .present "children" (.list (n.children.map .nat)), .optional "parent" .nat n.parent,
      .present "inherited" (.list (n.inherited.map InheritedGroup.toData))]

/-- Read a node. -/
def ofData? (value : Data) : Option Node := do
  let [id, name, path, command, structName, function, description, extendedHelp, aliases, parameters,
    children, parent, inherited] ←
    value.slots?
      ["id", "name", "path", "command", "struct_name", "function", "description", "extended_help",
        "aliases", "parameters", "children", "parent", "inherited"] | none
  return {
    id := ← Data.need Data.asCount? id
    name := ← Data.need Data.asText? name
    path := ← Data.need Data.asTexts? path
    command := ← Data.need Data.asText? command
    structName := ← Data.need Data.asText? structName
    function := ← Data.maybe Binding.ofData? function
    description := ← Data.maybe Data.asText? description
    extendedHelp := ← Data.maybe Data.asText? extendedHelp
    aliases := ← Data.orElse Data.asTexts? [] aliases
    parameters := ← Data.orElse Data.asParameters? [] parameters
    children := ← Data.orElse Data.asIds? [] children
    parent := ← Data.maybe Data.asCount? parent
    inherited := ← Data.orElse (Data.asList? InheritedGroup.ofData?) [] inherited }

end Node

namespace Command

/-- The tree of a command. -/
def toData (c : Command) : Data :=
  .ofFields
    [.present "name" (.text c.name), .optional "package" .text c.package,
      .present "struct_name" (.text c.structName), .optional "function" Binding.toData c.function,
      .optional "description" .text c.description, .optional "extended_help" .text c.extendedHelp,
      .present "parameters" (.list (c.parameters.map Parameter.toData)),
      .present "children" (.list (c.children.map .nat)),
      .present "nodes" (.list (c.nodes.map Node.toData))]

/-- Read a command. -/
def ofData? (value : Data) : Option Command := do
  let [name, package, structName, function, description, extendedHelp, parameters, children, nodes] ←
    value.slots?
      ["name", "package", "struct_name", "function", "description", "extended_help", "parameters",
        "children", "nodes"] | none
  return {
    name := ← Data.need Data.asText? name
    package := ← Data.maybe Data.asText? package
    structName := ← Data.need Data.asText? structName
    function := ← Data.maybe Binding.ofData? function
    description := ← Data.maybe Data.asText? description
    extendedHelp := ← Data.maybe Data.asText? extendedHelp
    parameters := ← Data.orElse Data.asParameters? [] parameters
    children := ← Data.orElse Data.asIds? [] children
    nodes := ← Data.orElse (Data.asList? Node.ofData?) [] nodes }

end Command

namespace Model

/-- The tree of a model. -/
def toData (m : Model) : Data :=
  .ofFields
    [.optional "schema_version" .text m.schemaVersion,
      .present "commands" (.list (m.commands.map Command.toData))]

/-- Read a model. -/
def ofData? (value : Data) : Option Model := do
  let [schemaVersion, commands] ← value.slots? ["schema_version", "commands"] | none
  return {
    schemaVersion := ← Data.maybe Data.asText? schemaVersion
    commands := ← Data.need (Data.asList? Command.ofData?) commands }

end Model

/-! ## Warnings and reports -/

namespace Warning

/-- The tree of a warning. -/
def toData (w : Warning) : Data :=
  .ofFields
    [.present "kind" (.text w.kind.name), .present "location" (.text w.location),
      .present "message" (.text w.message)]

/-- Read a warning. -/
def ofData? (value : Data) : Option Warning := do
  let [kind, location, message] ← value.slots? ["kind", "location", "message"] | none
  let kindName ← Data.need Data.asText? kind
  return {
    kind := ← WarningKind.all.find? (·.name == kindName)
    location := ← Data.need Data.asText? location
    message := ← Data.need Data.asText? message }

end Warning

namespace CommandSummary

/-- The tree of a summary. -/
def toData (s : CommandSummary) : Data :=
  .ofFields
    [.present "name" (.text s.name), .present "struct_name" (.text s.structName),
      .optional "package" .text s.package, .present "nodes" (.nat s.nodes),
      .present "synthetic_nodes" (.nat s.syntheticNodes), .present "parameters" (.nat s.parameters)]

/-- Read a summary. -/
def ofData? (value : Data) : Option CommandSummary := do
  let [name, structName, package, nodes, syntheticNodes, parameters] ←
    value.slots? ["name", "struct_name", "package", "nodes", "synthetic_nodes", "parameters"] | none
  return {
    name := ← Data.need Data.asText? name
    structName := ← Data.need Data.asText? structName
    package := ← Data.maybe Data.asText? package
    nodes := ← Data.need Data.asCount? nodes
    syntheticNodes := ← Data.need Data.asCount? syntheticNodes
    parameters := ← Data.need Data.asCount? parameters }

end CommandSummary

namespace Report

/-- The tree of a report. -/
def toData (r : Report) : Data :=
  .ofFields
    [.optional "schema_version" .text r.schemaVersion, .present "declarations" (.nat r.declarations),
      .present "commands" (.list (r.commands.map CommandSummary.toData)),
      .present "warnings" (.list (r.warnings.map Warning.toData))]

/-- Read a report. -/
def ofData? (value : Data) : Option Report := do
  let [schemaVersion, declarations, commands, warnings] ←
    value.slots? ["schema_version", "declarations", "commands", "warnings"] | none
  return {
    schemaVersion := ← Data.maybe Data.asText? schemaVersion
    declarations := ← Data.need Data.asCount? declarations
    commands := ← Data.need (Data.asList? CommandSummary.ofData?) commands
    warnings := ← Data.need (Data.asList? Warning.ofData?) warnings }

end Report

/-- The tree of a bundle. -/
def Bundle.toData (b : Bundle) : Data :=
  .ofFields
    [.optional "schema_version" .text b.schemaVersion, .present "version" (.text b.version),
      .present "generated_at" (.text b.generatedAt), .present "warnings" (.texts b.warnings),
      .present "model" b.model.toData]

end CommandDoc
