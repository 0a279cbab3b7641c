import CommandDoc.Text.Nesting
import CommandDoc.Text.Quoted

/-!
# References to functions

A comment can name a function that parses a parameter or generates its value: a function of the same
package, of an imported package, or of a package given by its quoted import path.

Main definitions:

- `FunctionRef` with `FunctionRef.ofText?` and `FunctionRef.display`.
-/

namespace CommandDoc

/-- A function that another package or the same package declares. -/
structure FunctionRef where
  /-- The import path of its package, if the reference gives it. -/
  importPath : Option String
  /-- The short name of its package, if the reference gives it. -/
  package : Option String
  /-- The function's name. -/
  name : String
  deriving Repr, DecidableEq

namespace FunctionRef

/-- Whether a reference stays in its package. -/
def isLocal (ref : FunctionRef) : Bool :=
  ref.importPath.isNone && ref.package.isNone

/-- A reference as it is written: behind its quoted import path or its package, if it has one of them. -/
def display (ref : FunctionRef) : String :=
  match ref.importPath, ref.package with
  | some path, _ => "\"" ++ path ++ "\"." ++ ref.name
  | none, some package => package ++ "." ++ ref.name
  | none, none => ref.name

/-- Read a reference over characters. The last dot outside quotes and parentheses separates the package
from the name; neither of the two can be blank. -/
def ofChars? (cs : List Char) : Option FunctionRef :=
  match Text.trim cs with
  | [] => none
  | trimmed =>
    match Text.splitLastDot? trimmed with
    | none => some ⟨none, none, String.ofList trimmed⟩
    | some (before, rest) =>
      let qualifier := Text.trim before
      let name := Text.trim rest
      if name.isEmpty || qualifier.isEmpty then none
      else if (Text.quotedInside? qualifier).isSome then
        some ⟨some (String.ofList (Text.unquote qualifier)), none, String.ofList name⟩
      else some ⟨none, some (String.ofList qualifier), String.ofList name⟩

/-- Read a reference. -/
def ofText? (text : String) : Option FunctionRef :=
  ofChars? text.toList

end FunctionRef

end CommandDoc
