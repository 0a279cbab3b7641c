import CommandDoc.Text.Blank
import CommandDoc.Text.LetterCase

/-!
# Parameter types

A parameter of a command has one of fifteen primitive types, alone, as a list, or as an optional value.
Every other type is refused.

Main definitions:

- `Primitive` with `Primitive.ofText?` and `Primitive.spelling`.
- `TypeTag` with `TypeTag.ofText`, `TypeTag.ofVariadicText` and `TypeTag.spelling`.
-/

namespace CommandDoc

/-! ## Primitive types -/

/-- The primitive parameter types. -/
inductive Primitive where
  | bool
  | string
  | int
  | int8
  | int16
  | int32
  | int64
  | uint
  | uint8
  | uint16
  | uint32
  | uint64
  | float32
  | float64
  | duration
  deriving Repr, DecidableEq

namespace Primitive

/-- Every primitive type, in declaration order. -/
def all : List Primitive :=
  [bool, string, int, int8, int16, int32, int64, uint, uint8, uint16, uint32, uint64, float32, float64,
    duration]

/-- How source code spells a type. -/
def spelling : Primitive → String
  | bool => "bool"
  | string => "string"
  | int => "int"
  | int8 => "int8"
  | int16 => "int16"
  | int32 => "int32"
  | int64 => "int64"
  | uint => "uint"
  | uint8 => "uint8"
  | uint16 => "uint16"
  | uint32 => "uint32"
  | uint64 => "uint64"
  | float32 => "float32"
  | float64 => "float64"
  | duration => "time.Duration"

/-- Read a type name, with blanks around it allowed. A byte is an 8-bit unsigned integer, and a duration
can be written with or without its package. -/
def ofText? (text : String) : Option Primitive :=
  let name := Text.trimmed text
  if name == "byte" then some uint8
  else if name == "duration" then some duration
  else all.find? (·.spelling == name)

end Primitive

/-! ## Tags -/

/-- The type of a parameter. -/
inductive TypeTag where
  /-- A single value. -/
  | scalar (elem : Primitive)
  /-- A list of values. -/
  | slice (elem : Primitive)
  /-- A value that can be absent. -/
  | pointer (elem : Primitive)
  deriving Repr, DecidableEq

/-- A type that no parameter can have, as it was written. -/
structure TypeError where
  /-- The type's text without blanks around it. -/
  text : String
  deriving Repr, DecidableEq

/-- What is said about a refused type. -/
def TypeError.message (e : TypeError) : String :=
  "unsupported parameter type: " ++ e.text

namespace TypeTag

/-- How source code spells a tag. -/
def spelling : TypeTag → String
  | scalar elem => elem.spelling
  | slice elem => "[]" ++ elem.spelling
  | pointer elem => "*" ++ elem.spelling

/-- Whether a tag is a single truth value. -/
def isBool (tag : TypeTag) : Bool :=
  tag == scalar .bool

/-- Read a tag: dots or brackets before a primitive make a list, a star makes it optional. -/
def ofText (text : String) : Except TypeError TypeTag :=
  let trimmed := Text.trimmed text
  let read (wrap : Primitive → TypeTag) (name : List Char) : Except TypeError TypeTag :=
    match Primitive.ofText? (String.ofList name) with
    | some elem => .ok (wrap elem)
    | none => .error ⟨trimmed⟩
  match Text.afterExactly? ['.', '.', '.'] trimmed.toList with
  | some name => read slice name
  | none =>
    match Text.afterExactly? ['[', ']'] trimmed.toList with
    | some name => read slice name
    | none =>
      match Text.afterExactly? ['*'] trimmed.toList with
      | some name => read pointer name
      | none => read scalar trimmed.toList

/-- Read the tag of a parameter that takes any number of values: a list of the primitive given alone or
as a list. Optional values cannot be repeated. -/
def ofVariadicText (text : String) : Except TypeError TypeTag := do
  match ← ofText text with
  | scalar elem | slice elem => pure (slice elem)
  | pointer _ => throw ⟨"..." ++ Text.trimmed text⟩

end TypeTag

end CommandDoc
