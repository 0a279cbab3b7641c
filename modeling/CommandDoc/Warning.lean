import CommandDoc.Ordered

/-!
# Warnings

Findings about comments that do not stop a build.

Main definitions:

- `Warning` and `Warning.display`.
- `Warning.sort` puts warnings into an order that does not depend on how they were found.
-/

namespace CommandDoc

/-- What a warning is about. -/
inductive WarningKind where
  /-- A subcommand has no short description. -/
  | missingShortDescription
  /-- Some parameters are described and this one is not. -/
  | missingParameterDescription
  /-- An entry of a flags block is indented with a space. -/
  | spaceIndentedFlags
  /-- The line behind the head of a flags block is not blank. -/
  | missingBlankAfterFlags
  /-- A documented parameter is not in the signature. -/
  | unknownParameter
  /-- The comment declares a subcommand without naming it. -/
  | missingCommandName
  deriving Repr, DecidableEq

namespace WarningKind

/-- Every kind, in sorting order. -/
def all : List WarningKind :=
  [missingShortDescription, missingParameterDescription, spaceIndentedFlags, missingBlankAfterFlags,
    unknownParameter, missingCommandName]

/-- The name of a kind. -/
def name : WarningKind → String
  | missingShortDescription => "missing_short_description"
  | missingParameterDescription => "missing_parameter_description"
  | spaceIndentedFlags => "space_indented_flags"
  | missingBlankAfterFlags => "missing_blank_after_flags"
  | unknownParameter => "unknown_parameter"
  | missingCommandName => "missing_command_name"

/-- The place of a kind in the sorting order. -/
def rank (kind : WarningKind) : Nat :=
  all.idxOf kind

end WarningKind

/-- A finding about a comment. -/
structure Warning where
  /-- What it is about. -/
  kind : WarningKind
  /-- The function or command that it concerns. -/
  location : String
  /-- What is said. -/
  message : String
  deriving Repr, DecidableEq

namespace Warning

/-- A warning on one line. -/
def display (w : Warning) : String :=
  w.location ++ ": " ++ w.message ++ " [" ++ w.kind.name ++ "]"

/-- Whether a warning can stand before another: by location, then kind, then message. -/
def le (v w : Warning) : Bool :=
  if v.location != w.location then Ordered.stringBefore v.location w.location
  else if v.kind != w.kind then decide (v.kind.rank < w.kind.rank)
  else !Ordered.stringBefore w.message v.message

/-- Warnings by location, kind and message. -/
def sort (warnings : List Warning) : List Warning :=
  warnings.mergeSort le

end Warning

end CommandDoc
