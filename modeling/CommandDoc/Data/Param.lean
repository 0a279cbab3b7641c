import CommandDoc.Data.Signature
import CommandDoc.Model.Parameter

/-!
# Parameters as data

Candidates and finished parameters share their traits, so they share most of their fields.

Main definitions:

- `Candidate.toData` and `Candidate.ofData?`.
- `Parameter.toData` and `Parameter.ofData?`.
-/

namespace CommandDoc

/-! ## Common fields -/

/-- A field with a number of 32 bits. -/
def Data.word (n : UInt32) : Data :=
  .nat n.toNat

/-- A list of texts, read. -/
def Data.asTexts? (value : Data) : Option (List String) :=
  value.asList? Data.asText?

namespace Traits

/-- The names of the fields behind the flags. -/
def fieldNames : List String :=
  ["default", "env_var", "description", "required", "inherited", "from_parent", "positional", "position",
    "vararg", "var_min", "var_max", "parser", "generator"]

/-- The fields behind the flags. -/
def toFields (t : Traits) : List Data.Field :=
  [.optional "default" .text t.defaultValue, .optional "env_var" .text t.envVar,
    .optional "description" .text t.description, .present "required" (.bool t.required),
    .present "inherited" (.bool t.inherited), .present "from_parent" (.bool t.fromParent),
    .present "positional" (.bool t.positional), .optional "position" Data.word t.position,
    .present "vararg" (.bool t.vararg), .present "var_min" (.word t.varMin),
    .present "var_max" (.word t.varMax), .optional "parser" FunctionRef.toData t.parser,
    .optional "generator" FunctionRef.toData t.generator]

/-- Read the fields behind the flags. -/
def ofSlots? (flags : List String) (slots : List (Option Data)) : Option Traits := do
  let [defaultValue, envVar, description, required, inherited, fromParent, positional, position, vararg,
    varMin, varMax, parser, generator] := slots | none
  return {
    flags := flags
    defaultValue := ← Data.maybe Data.asText? defaultValue
    envVar := ← Data.maybe Data.asText? envVar
    description := ← Data.maybe Data.asText? description
    required := ← Data.orElse Data.asBool? false required
    inherited := ← Data.orElse Data.asBool? false inherited
    fromParent := ← Data.orElse Data.asBool? false fromParent
    positional := ← Data.orElse Data.asBool? false positional
    position := ← Data.maybe Data.asWord? position
    vararg := ← Data.orElse Data.asBool? false vararg
    varMin := ← Data.orElse Data.asWord? 0 varMin
    varMax := ← Data.orElse Data.asWord? 0 varMax
    parser := ← Data.maybe FunctionRef.ofData? parser
    generator := ← Data.maybe FunctionRef.ofData? generator }

end Traits

/-! ## Candidates -/

namespace Candidate

/-- The tree of a candidate. -/
def toData (c : Candidate) : Data :=
  .ofFields
    (.unlessEmpty "flags" c.flags :: .unlessEmpty "aliases" c.aliases :: c.toTraits.toFields)

/-- Read a candidate. -/
def ofData? (value : Data) : Option Candidate := do
  let flags :: aliases :: slots ← value.slots? ("flags" :: "aliases" :: Traits.fieldNames) | none
  let traits ← Traits.ofSlots? (← Data.orElse Data.asTexts? [] flags) slots
  return { toTraits := traits, aliases := ← Data.orElse Data.asTexts? [] aliases }

end Candidate

/-! ## Parameters -/

namespace Parameter

/-- The tree of a parameter. -/
def toData (p : Parameter) : Data :=
  .ofFields
    ([.present "name" (.text p.name), .present "type_tag" p.type.toData, .present "flags" (.texts p.flags)]
      ++ p.toTraits.toFields ++ [.optional "declared_by" .text p.declaredBy])

/-- Read a parameter. -/
def ofData? (value : Data) : Option Parameter := do
  let name :: type :: flags :: slots ←
    value.slots? (["name", "type_tag", "flags"] ++ Traits.fieldNames ++ ["declared_by"]) | none
  let traits ← Traits.ofSlots? (← Data.orElse Data.asTexts? [] flags) slots.dropLast
  return {
    toTraits := traits
    name := ← Data.need Data.asText? name
    type := ← Data.need TypeTag.ofData? type
    declaredBy := ← Data.maybe Data.asText? slots.getLast?.join }

end Parameter

end CommandDoc
