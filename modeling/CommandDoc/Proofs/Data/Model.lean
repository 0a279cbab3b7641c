import CommandDoc.Data.Model
import CommandDoc.Proofs.Data.Signature
import CommandDoc.View.Format

/-!
# Reading models back

Parameters, nodes, commands and models are read back from their trees, and so from their JSON text.  The same
holds for the source units of a declaration file, as a list and alone.

Main definitions:

- `CountsFit` for nodes, commands and models.

Main results:

- Theorem `Traits.ofSlots?_toFields`: the fields that candidates and parameters share are read back.
- Theorem `Model.ofData?_toData`: a model is read back from its tree.
- Theorem `read_back_of_countsFit`: models and declaration files are read back from their JSON text.
-/

namespace CommandDoc

open Data

/-! ## Parameters -/

namespace Traits

/-- The fields of the traits are written under their names, in their order. -/
theorem forall₂_isFor_toFields (t : Traits) : List.Forall₂ Field.IsFor fieldNames t.toFields := by
  simp [fieldNames, toFields]

/-- Traits are read back from the values of their fields. -/
@[simp] theorem ofSlots?_toFields (t : Traits) : ofSlots? t.flags (t.toFields.map Field.value) = some t := by
  have hvalues : t.toFields.map Field.value =
      [t.defaultValue.map .text, t.envVar.map .text, t.description.map .text, some (.bool t.required),
        some (.bool t.inherited), some (.bool t.fromParent), some (.bool t.positional), t.position.map .word,
        some (.bool t.vararg), some (.word t.varMin), some (.word t.varMax), t.parser.map FunctionRef.toData,
        t.generator.map FunctionRef.toData] := by
    simp [toFields]
  rw [hvalues]
  dsimp only [ofSlots?, orElse_some]
  rw [maybe_text, maybe_text, maybe_text, maybe_word, asWord?_word, asWord?_word, FunctionRef.maybe_toData,
    FunctionRef.maybe_toData]
  rfl

/-- Every field of the traits can be written and read. -/
theorem isPlain_toFields (t : Traits) (depth : Nat) : ∀ field ∈ t.toFields, field.IsPlain (depth + 1) := by
  simp [toFields]

end Traits

namespace Parameter

/-- A parameter is read back from its data. -/
@[simp] theorem ofData?_toData (p : Parameter) : ofData? p.toData = some p := by
  have hfor : List.Forall₂ Field.IsFor (["name", "type_tag", "flags"] ++ Traits.fieldNames ++ ["declared_by"])
      ([.present "name" (.text p.name), .present "type_tag" p.type.toData, .present "flags" (.texts p.flags)]
        ++ p.toTraits.toFields ++ [.optional "declared_by" .text p.declaredBy]) :=
    List.rel_append (List.rel_append (by simp) p.toTraits.forall₂_isFor_toFields) (by simp)
  rw [ofData?, toData, slots?_ofFields (by decide) hfor]
  simp

/-- The data of a parameter can be written and read. -/
@[simp] theorem isPlain_toData (p : Parameter) (depth : Nat) : p.toData.IsPlain (depth + 2) := by
  have hfirst : ∀ field ∈ [Field.present "name" (.text p.name), .present "type_tag" p.type.toData,
      .present "flags" (.texts p.flags)], field.IsPlain (depth + 1) := by simp
  have hlast : ∀ field ∈ [Field.optional "declared_by" .text p.declaredBy], field.IsPlain (depth + 1) := by
    simp
  apply isPlain_ofFields
  rw [List.forall_mem_append, List.forall_mem_append]
  exact ⟨⟨hfirst, p.toTraits.isPlain_toFields depth⟩, hlast⟩

end Parameter

namespace Data

/-- A list of parameters is read back from its data. -/
@[simp] theorem asParameters?_map (parameters : List Parameter) :
    asParameters? (.list (parameters.map Parameter.toData)) = some parameters :=
  asList?_map fun p _ => p.ofData?_toData

/-- A list of node ids is read back from its data. -/
theorem asIds?_map {ids : List Nat} (h : ∀ id ∈ ids, IsCount id) :
    asIds? (.list (ids.map .nat)) = some ids :=
  asList?_map fun id hid => asCount?_nat (h id hid)

end Data

/-! ## Commands -/

namespace InheritedGroup

/-- An inherited group is read back from its data. -/
@[simp] theorem ofData?_toData (g : InheritedGroup) : ofData? g.toData = some g := by
  simp [ofData?, toData, slots?_ofFields]

/-- The data of an inherited group can be written and read. -/
@[simp] theorem isPlain_toData (g : InheritedGroup) (depth : Nat) : g.toData.IsPlain (depth + 4) :=
  isPlain_ofFields (by simp)

end InheritedGroup

namespace Node

/-- The numbers of a node and of those around it fit into 64 bits, and so do the counts of its binding. -/
@[mk_iff]
structure CountsFit (n : Node) : Prop where
  id : IsCount n.id
  function : ∀ b ∈ n.function, b.CountsFit
  children : ∀ child ∈ n.children, IsCount child
  parent : ∀ parent ∈ n.parent, IsCount parent

variable {n : Node}

/-- A node is read back from its data. -/
theorem ofData?_toData (h : n.CountsFit) : ofData? n.toData = some n := by
  have hparent : maybe asCount? (n.parent.map .nat) = some n.parent :=
    maybe_map (by simp) fun parent hparent => asCount?_nat (h.parent parent hparent)
  have hinherited : asList? InheritedGroup.ofData? (.list (n.inherited.map InheritedGroup.toData))
      = some n.inherited := asList?_map (by simp)
  have hslots : n.toData.slots?
      ["id", "name", "path", "command", "struct_name", "function", "description", "extended_help", "aliases",
        "parameters", "children", "parent", "inherited"]
      = some [some (.nat n.id), some (.text n.name), some (.texts n.path), some (.text n.command),
        some (.text n.structName), n.function.map Binding.toData, n.description.map .text,
        n.extendedHelp.map .text, some (.texts n.aliases), some (.list (n.parameters.map Parameter.toData)),
        some (.list (n.children.map .nat)), n.parent.map .nat,
        some (.list (n.inherited.map InheritedGroup.toData))] := by
    rw [toData, slots?_ofFields (by decide) (by simp)]
    simp
  -- Every slot is read by a law of its own, so that the steps of the reader need not be simplified.
  rw [ofData?, hslots]
  dsimp only [Option.bind_eq_bind, Option.bind_some, need_some, orElse_some]
  rw [asCount?_nat h.id, asTexts?_texts, Binding.maybe_toData h.function, maybe_text, maybe_text,
    asTexts?_texts, asParameters?_map, asIds?_map h.children, hparent, hinherited]
  rfl

/-- The data of a node can be written and read. -/
theorem isPlain_toData (h : n.CountsFit) (depth : Nat) : n.toData.IsPlain (depth + 6) := by
  have hfunction : ∀ b ∈ n.function, b.toData.IsPlain (depth + 5) := fun b hb =>
    Binding.isPlain_toData (h.function b hb) (depth + 1)
  exact isPlain_ofFields
    (by simpa using And.intro h.id (And.intro hfunction (And.intro h.children h.parent)))

end Node

namespace Command

/-- The numbers of a command's children fit into 64 bits, and so do the counts of its binding and of its
nodes. -/
@[mk_iff]
structure CountsFit (c : Command) : Prop where
  function : ∀ b ∈ c.function, b.CountsFit
  children : ∀ child ∈ c.children, IsCount child
  nodes : ∀ n ∈ c.nodes, n.CountsFit

variable {c : Command}

/-- A command is read back from its data. -/
theorem ofData?_toData (h : c.CountsFit) : ofData? c.toData = some c := by
  have hnodes : asList? Node.ofData? (.list (c.nodes.map Node.toData)) = some c.nodes :=
    asList?_map fun n hn => Node.ofData?_toData (h.nodes n hn)
  have hslots : c.toData.slots?
      ["name", "package", "struct_name", "function", "description", "extended_help", "parameters", "children",
        "nodes"]
      = some [some (.text c.name), c.package.map .text, some (.text c.structName),
        c.function.map Binding.toData, c.description.map .text, c.extendedHelp.map .text,
        some (.list (c.parameters.map Parameter.toData)), some (.list (c.children.map .nat)),
        some (.list (c.nodes.map Node.toData))] := by
    rw [toData, slots?_ofFields (by decide) (by simp)]
    simp
  rw [ofData?, hslots]
  dsimp only [Option.bind_eq_bind, Option.bind_some, need_some, orElse_some]
  rw [maybe_text, Binding.maybe_toData h.function, maybe_text, maybe_text, asParameters?_map,
    asIds?_map h.children, hnodes]
  rfl

/-- The data of a command can be written and read. -/
theorem isPlain_toData (h : c.CountsFit) (depth : Nat) : c.toData.IsPlain (depth + 8) := by
  have hfunction : ∀ b ∈ c.function, b.toData.IsPlain (depth + 7) := fun b hb =>
    Binding.isPlain_toData (h.function b hb) (depth + 3)
  have hnodes : ∀ n ∈ c.nodes, n.toData.IsPlain (depth + 6) := fun n hn =>
    Node.isPlain_toData (h.nodes n hn) depth
  exact isPlain_ofFields (by simpa using And.intro hfunction (And.intro h.children hnodes))

end Command

/-! ## Models -/

namespace Model

/-- The counts of every command fit into 64 bits. -/
def CountsFit (m : Model) : Prop :=
  ∀ c ∈ m.commands, c.CountsFit

variable {m : Model}

/-- A model is read back from its data. -/
theorem ofData?_toData (h : m.CountsFit) : ofData? m.toData = some m := by
  have hcommands : asList? Command.ofData? (.list (m.commands.map Command.toData)) = some m.commands :=
    asList?_map fun c hc => Command.ofData?_toData (h c hc)
  simp [ofData?, toData, slots?_ofFields, hcommands]

/-- The data of a model can be written and read. -/
theorem isPlain_toData (h : m.CountsFit) (depth : Nat) : m.toData.IsPlain (depth + 10) := by
  have hcommands : ∀ c ∈ m.commands, c.toData.IsPlain (depth + 8) := fun c hc =>
    Command.isPlain_toData (h c hc) depth
  exact isPlain_ofFields (by simpa using hcommands)

end Model

/-! ## JSON text -/

/-- A model is read back from its JSON text.  A declaration file with a list of source units is read back as
this list, and one with a single source unit as the list of this unit alone, in either layout. -/
theorem read_back_of_countsFit {m : Model} {us : List SourceUnit} {u : SourceUnit} (hm : m.CountsFit)
    (hus : ∀ u ∈ us, u.CountsFit) (hu : u.CountsFit) :
    (Json.read? (m.render .json)).bind Model.ofData? = some m ∧
      ∀ write ∈ [Json.compact, Json.pretty],
        (Json.read? (write (.list (us.map SourceUnit.toData)))).bind SourceUnit.listOfData? = some us ∧
          (Json.read? (write u.toData)).bind SourceUnit.listOfData? = some [u] := by
  have hread : ∀ write ∈ [Json.compact, Json.pretty], ∀ value, value.IsPlain 127 →
      Json.read? (write value) = some value := by
    intro write hwrite value hvalue
    rw [List.mem_pair] at hwrite
    rcases hwrite with rfl | rfl
    · exact Json.read?_compact hvalue
    · exact Json.read?_pretty hvalue
  have hunits : ∀ unit ∈ us, unit.toData.IsPlain 126 := fun unit hunit =>
    SourceUnit.isPlain_toData (hus unit hunit) 121
  refine ⟨?_, fun write hwrite => ⟨?_, ?_⟩⟩
  · rw [Model.render, Json.read?_pretty (Model.isPlain_toData hm 117), Option.bind_some]
    exact Model.ofData?_toData hm
  · rw [hread write hwrite _ (isPlain_list.mpr (by simpa using hunits)), Option.bind_some]
    exact SourceUnit.listOfData?_list hus
  · rw [hread write hwrite _ (SourceUnit.isPlain_toData hu 122), Option.bind_some]
    exact SourceUnit.listOfData?_toData hu

/-- A function with a comment behind its parameter and an error as its result. -/
def sampleGreet : SourceFunction where
  name := "Greet"
  doc := "Greet is a subcommand \x60hello greet\x60 that says \"hello\".\n"
  docSpan := some ⟨3, 5⟩
  parameters := [{ name := "name", typeText := "*string", inlineComment := some "-n\twho" }]
  returns := Returns.onlyError

/-- A file with one function. -/
def sampleGreetUnit : SourceUnit := ⟨"example.com/hello", "greet.go", [sampleGreet]⟩

/-- A command with one node. -/
def sampleHello : Model :=
  .ofCommands [{
    name := "hello"
    structName := "Hello"
    children := [0]
    nodes := [{
      id := 0
      name := "greet"
      path := ["greet"]
      command := "hello"
      structName := "HelloGreet"
      function := some ⟨"Greet", "example.com/hello", "greet.go", some ⟨3, 5⟩,
        [⟨"name", .pointer .string, false⟩], Returns.onlyError⟩
      parameters := [{ name := "name", type := .pointer .string, position := some 1 }]
      parent := none
      inherited := [⟨"hello", [{ name := "level", type := .scalar .uint8, flags := ["l"] }]⟩] }] }]

theorem read_back_of_countsFit_sampleHello :
    (sampleHello.CountsFit ∧ sampleGreetUnit.CountsFit) ∧
      (Json.read? (sampleHello.render .json)).bind Model.ofData? = some sampleHello ∧
      (Json.read? (Json.compact (.list [sampleGreetUnit.toData]))).bind SourceUnit.listOfData?
        = some [sampleGreetUnit] := by
  have hmodel : sampleHello.CountsFit := by
    simp [sampleHello, Model.CountsFit, Model.ofCommands, Command.countsFit_iff, Node.countsFit_iff,
      Binding.countsFit_iff, LineSpan.CountsFit, Returns.CountsFit, Returns.onlyError, IsCount]
  have hunit : sampleGreetUnit.CountsFit := by
    simp [sampleGreetUnit, sampleGreet, SourceUnit.CountsFit, SourceFunction.countsFit_iff, LineSpan.CountsFit,
      Returns.CountsFit, Returns.onlyError, IsCount]
  have hread := read_back_of_countsFit hmodel (List.forall_mem_singleton.mpr hunit) hunit
  exact ⟨⟨hmodel, hunit⟩, hread.1, (hread.2 Json.compact List.mem_cons_self).1⟩

end CommandDoc
