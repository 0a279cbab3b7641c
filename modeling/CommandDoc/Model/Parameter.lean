import CommandDoc.Name.Flag
import CommandDoc.Name.Kebab
import CommandDoc.Param.Candidate
import CommandDoc.Signature.Source

/-!
# Parameters of commands

A finished parameter: its name and type from the signature, and what the comments say about it.

Main definitions:

- `Parameter.ofCandidate` joins the signature and the comments.
- `Parameter.resolve` adds what follows from the signature: repetition, and a kebab case flag.
- `Parameter.flagNames` and `Parameter.flagDisplay`: how the parameter is reached.
-/

namespace CommandDoc

/-- A flag or an argument of a command. -/
structure Parameter extends Traits where
  /-- The identifier in the function's signature. -/
  name : String
  /-- The type. -/
  type : TypeTag
  /-- The label of the command that declares it. -/
  declaredBy : Option String := none
  deriving Repr, DecidableEq

namespace Parameter

/-- The parameter that a signature and the merged comments give. Aliases join the flags, and a repeated
parameter is an argument. -/
def ofCandidate (name : String) (type : TypeTag) (candidate : Candidate) : Parameter where
  toTraits :=
    { candidate.toTraits with
      flags := canonicalFlags (candidate.flags ++ candidate.aliases)
      positional := candidate.positional || candidate.vararg }
  name := name
  type := type

/-- A parameter that the signature repeats is a repeated argument. -/
def withVariadic (variadic : Bool) (p : Parameter) : Parameter :=
  if variadic then { p with vararg := true, positional := true } else p

/-- A flag without a name of its own is reached by its identifier in kebab case, unless that is the
identifier itself. -/
def withKebabFlag (p : Parameter) : Parameter :=
  if p.flags.isEmpty && !p.positional && kebab p.name != "" && kebab p.name != p.name then
    { p with flags := [kebab p.name] }
  else p

/-- The parameter of a signature with its merged comments. -/
def resolve (signature : TypedParam) (merged : Candidate) : Parameter :=
  ((ofCandidate signature.name signature.type merged).withVariadic signature.variadic).withKebabFlag

/-- The names that reach a parameter: its flags, or its identifier if it has none. -/
def flagNames (p : Parameter) : List String :=
  if p.flags.isEmpty then [p.name] else p.flags

/-- The names that reach a parameter, as they are written. -/
def flagDisplay (p : Parameter) : String :=
  ", ".intercalate (p.flagNames.map displayFlag)

/-- Whether a parameter is a flag and no argument. -/
def isFlag (p : Parameter) : Bool :=
  !p.positional

end Parameter

end CommandDoc
