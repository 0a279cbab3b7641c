import CommandDoc.Data.Signature
import CommandDoc.Proofs.Data.Records
import Mathlib.Tactic.MkIffOfInductiveProp

/-!
# Reading signatures back

Types, references, source units and bindings are read back from their trees: what a record leaves out is what a
reader takes for a missing field.  Counts are numbers of at most 64 bits, which is what a reader accepts.

Main definitions:

- `CountsFit` for spans, results, functions, source units and bindings.

Main results:

- Theorems `ofData?_toData` and `isPlain_toData` for each type.
- Theorems `SourceUnit.listOfData?_list` and `SourceUnit.listOfData?_toData`: a declaration file with a list of
  source units, or with a single one.
-/

namespace CommandDoc

open Data

/-! ## Types -/

namespace Primitive

/-- A primitive is read back from its data. -/
@[simp] theorem ofData?_toData (p : Primitive) : ofData? p.toData = some p := by
  cases p <;> decide

/-- The data of a primitive can be written and read at any depth. -/
@[simp] theorem isPlain_toData (p : Primitive) (depth : Nat) : p.toData.IsPlain depth :=
  isPlain_text _

end Primitive

namespace TypeTag

/-- The name of its kind tells a tag from the others of the same type. -/
@[simp] theorem ofData?_toData (tag : TypeTag) : ofData? tag.toData = some tag := by
  cases tag with
  | scalar p => simp [ofData?, toData, slots?_ofFields, kindName, elem]
  | slice p => simp [ofData?, toData, slots?_ofFields, kindName, elem]
  | pointer p => simp [ofData?, toData, slots?_ofFields, kindName, elem]

/-- The data of a type can be written and read. -/
@[simp] theorem isPlain_toData (tag : TypeTag) (depth : Nat) : tag.toData.IsPlain (depth + 1) :=
  isPlain_ofFields (by simp)

end TypeTag

namespace FunctionRef

/-- A function reference is read back from its data. -/
@[simp] theorem ofData?_toData (ref : FunctionRef) : ofData? ref.toData = some ref := by
  simp [ofData?, toData, slots?_ofFields]

/-- A reference that can be absent is read back. -/
@[simp] theorem maybe_toData (ref : Option FunctionRef) : maybe ofData? (ref.map toData) = some ref :=
  maybe_map (fun _ => ofFields_ne_null _) fun ref _ => ref.ofData?_toData

/-- The data of a function reference can be written and read. -/
@[simp] theorem isPlain_toData (ref : FunctionRef) (depth : Nat) : ref.toData.IsPlain (depth + 1) :=
  isPlain_ofFields (by simp)

end FunctionRef

/-! ## Declarations -/

namespace LineSpan

/-- The numbers of both lines fit into 64 bits. -/
def CountsFit (span : LineSpan) : Prop :=
  IsCount span.first ∧ IsCount span.last

/-- A line span is read back from its data. -/
theorem ofData?_toData {span : LineSpan} (h : span.CountsFit) : ofData? span.toData = some span := by
  simp [ofData?, toData, slots?_ofFields, asCount?_nat h.1, asCount?_nat h.2]

/-- A span that can be absent is read back. -/
theorem maybe_toData {span : Option LineSpan} (h : ∀ s ∈ span, s.CountsFit) :
    maybe ofData? (span.map toData) = some span :=
  maybe_map (fun _ => ofFields_ne_null _) fun s hs => ofData?_toData (h s hs)

/-- The data of a line span can be written and read. -/
theorem isPlain_toData {span : LineSpan} (h : span.CountsFit) (depth : Nat) :
    span.toData.IsPlain (depth + 1) :=
  isPlain_ofFields (by simpa [CountsFit] using h)

end LineSpan

namespace Returns

/-- The number of results fits into 64 bits. -/
def CountsFit (returns : Returns) : Prop :=
  IsCount returns.count

variable {returns : Returns}

/-- Return facts are read back from their data. -/
theorem ofData?_toData (h : returns.CountsFit) : ofData? returns.toData = some returns := by
  simp [ofData?, toData, slots?_ofFields, asCount?_nat h]

/-- The data of return facts can be written and read. -/
theorem isPlain_toData (h : returns.CountsFit) (depth : Nat) : returns.toData.IsPlain (depth + 1) :=
  isPlain_ofFields (by simpa [CountsFit] using h)

end Returns

namespace SourceParam

/-- A parameter of a signature is read back from its data. -/
@[simp] theorem ofData?_toData (p : SourceParam) : ofData? p.toData = some p := by
  simp [ofData?, toData, slots?_ofFields]

/-- The data of a parameter of a signature can be written and read. -/
@[simp] theorem isPlain_toData (p : SourceParam) (depth : Nat) : p.toData.IsPlain (depth + 1) :=
  isPlain_ofFields (by simp)

end SourceParam

namespace SourceFunction

/-- The counts of a function fit into 64 bits. -/
@[mk_iff]
structure CountsFit (f : SourceFunction) : Prop where
  docSpan : ∀ span ∈ f.docSpan, span.CountsFit
  returns : f.returns.CountsFit

variable {f : SourceFunction}

/-- A function is read back from its data. -/
theorem ofData?_toData (h : f.CountsFit) : ofData? f.toData = some f := by
  have hparameters : asList? SourceParam.ofData? (.list (f.parameters.map SourceParam.toData))
      = some f.parameters := asList?_map (by simp)
  simp [ofData?, toData, slots?_ofFields, LineSpan.maybe_toData h.docSpan, hparameters,
    Returns.ofData?_toData h.returns]

/-- The data of a function can be written and read. -/
theorem isPlain_toData (h : f.CountsFit) (depth : Nat) : f.toData.IsPlain (depth + 3) := by
  have hspan : ∀ span ∈ f.docSpan, span.toData.IsPlain (depth + 2) := fun span hspan =>
    LineSpan.isPlain_toData (h.docSpan span hspan) (depth + 1)
  have hreturns : f.returns.toData.IsPlain (depth + 2) := Returns.isPlain_toData h.returns (depth + 1)
  exact isPlain_ofFields (by simpa using And.intro hspan hreturns)

end SourceFunction

namespace SourceUnit

/-- The counts of every function fit into 64 bits. -/
def CountsFit (u : SourceUnit) : Prop :=
  ∀ f ∈ u.functions, f.CountsFit

variable {u : SourceUnit}

/-- A source unit is read back from its data. -/
theorem ofData?_toData (h : u.CountsFit) : ofData? u.toData = some u := by
  have hfunctions : asList? SourceFunction.ofData? (.list (u.functions.map SourceFunction.toData))
      = some u.functions := asList?_map fun f hf => SourceFunction.ofData?_toData (h f hf)
  simp [ofData?, toData, slots?_ofFields, hfunctions]

/-- The data of a source unit can be written and read. -/
theorem isPlain_toData (h : u.CountsFit) (depth : Nat) : u.toData.IsPlain (depth + 5) := by
  have hfunctions : ∀ f ∈ u.functions, f.toData.IsPlain (depth + 3) := fun f hf =>
    SourceFunction.isPlain_toData (h f hf) depth
  exact isPlain_ofFields (by simpa using hfunctions)

/-- A declaration file with a list of source units. -/
theorem listOfData?_list {us : List SourceUnit} (h : ∀ u ∈ us, u.CountsFit) :
    listOfData? (.list (us.map toData)) = some us := by
  rw [listOfData?, asList?_map fun u hu => ofData?_toData (h u hu), Option.some_or]

/-- A declaration file with a single source unit.  A record is no list, so nothing else is read from it. -/
theorem listOfData?_toData (h : u.CountsFit) : listOfData? u.toData = some [u] := by
  have hrecord : asList? ofData? u.toData = none := rfl
  rw [listOfData?, hrecord, ofData?_toData h, Option.none_or, Option.map_some]

end SourceUnit

/-! ## Bindings -/

namespace TypedParam

/-- A typed parameter is read back from its data. -/
@[simp] theorem ofData?_toData (p : TypedParam) : ofData? p.toData = some p := by
  simp [ofData?, toData, slots?_ofFields]

/-- The data of a typed parameter can be written and read. -/
@[simp] theorem isPlain_toData (p : TypedParam) (depth : Nat) : p.toData.IsPlain (depth + 2) :=
  isPlain_ofFields (by simp)

end TypedParam

namespace Binding

/-- The counts of a binding fit into 64 bits. -/
@[mk_iff]
structure CountsFit (b : Binding) : Prop where
  docSpan : ∀ span ∈ b.docSpan, span.CountsFit
  returns : b.returns.CountsFit

/-- A binding is read back from its data. -/
theorem ofData?_toData {b : Binding} (h : b.CountsFit) : ofData? b.toData = some b := by
  have hparameters : asList? TypedParam.ofData? (.list (b.parameters.map TypedParam.toData))
      = some b.parameters := asList?_map (by simp)
  simp [ofData?, toData, slots?_ofFields, LineSpan.maybe_toData h.docSpan, hparameters,
    Returns.ofData?_toData h.returns]

/-- A binding that can be absent is read back. -/
theorem maybe_toData {function : Option Binding} (h : ∀ b ∈ function, b.CountsFit) :
    maybe ofData? (function.map toData) = some function :=
  maybe_map (fun _ => ofFields_ne_null _) fun b hb => ofData?_toData (h b hb)

/-- The data of a binding can be written and read. -/
theorem isPlain_toData {b : Binding} (h : b.CountsFit) (depth : Nat) : b.toData.IsPlain (depth + 4) := by
  have hspan : ∀ span ∈ b.docSpan, span.toData.IsPlain (depth + 3) := fun span hspan =>
    LineSpan.isPlain_toData (h.docSpan span hspan) (depth + 2)
  have hreturns : b.returns.toData.IsPlain (depth + 3) := Returns.isPlain_toData h.returns (depth + 2)
  exact isPlain_ofFields (by simpa using And.intro hspan hreturns)

end Binding

end CommandDoc
