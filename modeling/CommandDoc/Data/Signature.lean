import CommandDoc.Data.Basic
import CommandDoc.Signature.FunctionRef
import CommandDoc.Signature.Source

/-!
# Signatures as data

The tree of every type that describes functions and their parameters, and the way back.

Main definitions:

- `toData` and `ofData?` for primitives, tags, references, source units and bindings.
-/

namespace CommandDoc

/-! ## Types -/

namespace Primitive

/-- The name of a type in data. -/
def dataName : Primitive → String
  | duration => "duration"
  | other => other.spelling

/-- The tree of a type. -/
def toData (p : Primitive) : Data :=
  .text p.dataName

/-- Read a type. -/
def ofData? (value : Data) : Option Primitive := do
  let name ← value.asText?
  all.find? (·.dataName == name)

end Primitive

namespace TypeTag

/-- The name of a tag's kind. -/
def kindName : TypeTag → String
  | scalar _ => "scalar"
  | slice _ => "slice"
  | pointer _ => "pointer"

/-- The primitive type inside a tag. -/
def elem : TypeTag → Primitive
  | scalar p | slice p | pointer p => p

/-- The tree of a tag. -/
def toData (tag : TypeTag) : Data :=
  .ofFields [.present "kind" (.text tag.kindName), .present "elem" tag.elem.toData]

/-- Read a tag. -/
def ofData? (value : Data) : Option TypeTag := do
  let [kind, elem] ← value.slots? ["kind", "elem"] | none
  let p ← Data.need Primitive.ofData? elem
  [scalar p, slice p, pointer p].find? (some ·.kindName == kind.bind Data.asText?)

end TypeTag

namespace FunctionRef

/-- The tree of a reference. -/
def toData (ref : FunctionRef) : Data :=
  .ofFields
    [.optional "import_path" .text ref.importPath, .optional "package" .text ref.package,
      .present "name" (.text ref.name)]

/-- Read a reference. -/
def ofData? (value : Data) : Option FunctionRef := do
  let [importPath, package, name] ← value.slots? ["import_path", "package", "name"] | none
  return {
    importPath := ← Data.maybe Data.asText? importPath
    package := ← Data.maybe Data.asText? package
    name := ← Data.need Data.asText? name }

end FunctionRef

/-! ## Declarations -/

namespace LineSpan

/-- The tree of a span. -/
def toData (span : LineSpan) : Data :=
  .ofFields [.present "line_start" (.nat span.first), .present "line_end" (.nat span.last)]

/-- Read a span. -/
def ofData? (value : Data) : Option LineSpan := do
  let [first, last] ← value.slots? ["line_start", "line_end"] | none
  return { first := ← Data.need Data.asCount? first, last := ← Data.need Data.asCount? last }

end LineSpan

namespace Returns

/-- The tree of a function's results. -/
def toData (returns : Returns) : Data :=
  .ofFields
    [.present "count" (.nat returns.count), .present "last_is_error" (.bool returns.lastIsError)]

/-- Read a function's results. -/
def ofData? (value : Data) : Option Returns := do
  let [count, lastIsError] ← value.slots? ["count", "last_is_error"] | none
  return {
    count := ← Data.orElse Data.asCount? 0 count
    lastIsError := ← Data.orElse Data.asBool? false lastIsError }

end Returns

namespace SourceParam

/-- The tree of a declared parameter. -/
def toData (p : SourceParam) : Data :=
  .ofFields
    [.present "name" (.text p.name), .present "type_tag" (.text p.typeText),
      .present "variadic" (.bool p.variadic), .optional "inline_comment" .text p.inlineComment,
      .optional "preceding_comment" .text p.precedingComment]

/-- Read a declared parameter. -/
def ofData? (value : Data) : Option SourceParam := do
  let [name, typeText, variadic, inlineComment, precedingComment] ←
    value.slots? ["name", "type_tag", "variadic", "inline_comment", "preceding_comment"] | none
  return {
    name := ← Data.need Data.asText? name
    typeText := ← Data.need Data.asText? typeText
    variadic := ← Data.orElse Data.asBool? false variadic
    inlineComment := ← Data.maybe Data.asText? inlineComment
    precedingComment := ← Data.maybe Data.asText? precedingComment }

end SourceParam

namespace SourceFunction

/-- The tree of a declared function. -/
def toData (f : SourceFunction) : Data :=
  .ofFields
    [.present "name" (.text f.name), .present "doc" (.text f.doc),
      .optional "doc_span" LineSpan.toData f.docSpan,
      .present "parameters" (.list (f.parameters.map SourceParam.toData)),
      .present "returns" f.returns.toData]

/-- Read a declared function. -/
def ofData? (value : Data) : Option SourceFunction := do
  let [name, doc, docSpan, parameters, returns] ←
    value.slots? ["name", "doc", "doc_span", "parameters", "returns"] | none
  return {
    name := ← Data.need Data.asText? name
    doc := ← Data.orElse Data.asText? "" doc
    docSpan := ← Data.maybe LineSpan.ofData? docSpan
    parameters := ← Data.orElse (Data.asList? SourceParam.ofData?) [] parameters
    returns := ← Data.orElse Returns.ofData? {} returns }

end SourceFunction

namespace SourceUnit

/-- The tree of a source unit. -/
def toData (u : SourceUnit) : Data :=
  .ofFields
    [.present "package" (.text u.package), .present "file" (.text u.file),
      .present "functions" (.list (u.functions.map SourceFunction.toData))]

/-- Read a source unit. -/
def ofData? (value : Data) : Option SourceUnit := do
  let [package, file, functions] ← value.slots? ["package", "file", "functions"] | none
  return {
    package := ← Data.need Data.asText? package
    file := ← Data.need Data.asText? file
    functions := ← Data.orElse (Data.asList? SourceFunction.ofData?) [] functions }

/-- Read a declaration file: a list of source units, or a single one. -/
def listOfData? (value : Data) : Option (List SourceUnit) :=
  (value.asList? ofData?).or ((ofData? value).map fun u => [u])

end SourceUnit

/-! ## Bindings -/

namespace TypedParam

/-- The tree of a typed parameter. -/
def toData (p : TypedParam) : Data :=
  .ofFields
    [.present "name" (.text p.name), .present "type_tag" p.type.toData, .present "variadic" (.bool p.variadic)]

/-- Read a typed parameter. -/
def ofData? (value : Data) : Option TypedParam := do
  let [name, type, variadic] ← value.slots? ["name", "type_tag", "variadic"] | none
  return {
    name := ← Data.need Data.asText? name
    type := ← Data.need TypeTag.ofData? type
    variadic := ← Data.orElse Data.asBool? false variadic }

end TypedParam

namespace Binding

/-- The tree of a binding. -/
def toData (b : Binding) : Data :=
  .ofFields
    [.present "name" (.text b.name), .present "package" (.text b.package), .present "file" (.text b.file),
      .optional "doc_span" LineSpan.toData b.docSpan,
      .present "parameters" (.list (b.parameters.map TypedParam.toData)),
      .present "returns" b.returns.toData]

/-- Read a binding. -/
def ofData? (value : Data) : Option Binding := do
  let [name, package, file, docSpan, parameters, returns] ←
    value.slots? ["name", "package", "file", "doc_span", "parameters", "returns"] | none
  return {
    name := ← Data.need Data.asText? name
    package := ← Data.need Data.asText? package
    file := ← Data.need Data.asText? file
    docSpan := ← Data.maybe LineSpan.ofData? docSpan
    parameters := ← Data.need (Data.asList? TypedParam.ofData?) parameters
    returns := ← Data.need Returns.ofData? returns }

end Binding

end CommandDoc
