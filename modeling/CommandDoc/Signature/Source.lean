import CommandDoc.Signature.TypeTag

/-!
# Declarations in source files

What is known about the functions of a source file: names, doc comments, parameters with their types and
comments, and results. It comes from declaration files, so every record here is plain data.

Main definitions:

- `SourceUnit`, `SourceFunction`, `SourceParam`: the declarations as they were found.
- `Binding` and `TypedParam`: a function with its parameter types read.
-/

namespace CommandDoc

/-- The first and the last line of a doc comment. -/
structure LineSpan where
  /-- The first line. -/
  first : Nat
  /-- The last line. -/
  last : Nat
  deriving Repr, DecidableEq

/-- What a function returns. -/
structure Returns where
  /-- The number of results. -/
  count : Nat := 0
  /-- Whether the last result is an error. -/
  lastIsError : Bool := false
  deriving Repr, DecidableEq

/-- The number of results besides an error at the end. -/
def Returns.valueCount (returns : Returns) : Nat :=
  if returns.lastIsError then returns.count - 1 else returns.count

/-- A single error as result. -/
def Returns.onlyError : Returns := ⟨1, true⟩

/-- A parameter as declared. -/
structure SourceParam where
  /-- The parameter's identifier. -/
  name : String
  /-- The text of its type. -/
  typeText : String
  /-- Whether it takes any number of values. -/
  variadic : Bool := false
  /-- The comment behind it on the same line. -/
  inlineComment : Option String := none
  /-- The comment on the line before it. -/
  precedingComment : Option String := none
  deriving Repr, DecidableEq

/-- A function as declared. -/
structure SourceFunction where
  /-- The function's identifier. -/
  name : String
  /-- Its doc comment. -/
  doc : String := ""
  /-- Where the doc comment stands. -/
  docSpan : Option LineSpan := none
  /-- Its parameters, in order. -/
  parameters : List SourceParam := []
  /-- Its results. -/
  returns : Returns := {}
  deriving Repr, DecidableEq

/-- The functions of one source file. -/
structure SourceUnit where
  /-- The import path of the package. -/
  package : String
  /-- The file, relative to the package. -/
  file : String
  /-- The functions, in order. -/
  functions : List SourceFunction := []
  deriving Repr, DecidableEq

/-- A parameter with its type read. -/
structure TypedParam where
  /-- The parameter's identifier. -/
  name : String
  /-- Its type. -/
  type : TypeTag
  /-- Whether it takes any number of values. -/
  variadic : Bool := false
  deriving Repr, DecidableEq

/-- The function that a command runs. -/
structure Binding where
  /-- The function's identifier. -/
  name : String
  /-- The import path of its package. -/
  package : String
  /-- Its source file. -/
  file : String
  /-- Where its doc comment stands. -/
  docSpan : Option LineSpan := none
  /-- Its parameters, in order. -/
  parameters : List TypedParam
  /-- Its results. -/
  returns : Returns
  deriving Repr, DecidableEq

/-- Where a function is declared, for messages: package, name and file. -/
def Binding.origin (binding : Binding) : String :=
  binding.package ++ "." ++ binding.name ++ " (" ++ binding.file ++ ")"

end CommandDoc
