import CommandDoc.Report

/-!
# Bundles

A model packed for distribution, with the tool's version, the time and the warnings of the build.

Main definitions:

- `Bundle` and `Bundle.ofBuild`.
-/

namespace CommandDoc

/-- A model packed for distribution. -/
structure Bundle where
  /-- The version of the model's shape. -/
  schemaVersion : Option String := some CommandDoc.schemaVersion
  /-- The version of the tool. -/
  version : String
  /-- When the bundle was made. -/
  generatedAt : String
  /-- The warnings of the build, one on each line. -/
  warnings : List String := []
  /-- The model. -/
  model : Model
  deriving Repr, DecidableEq

namespace Bundle

/-- The bundle of a build. -/
def ofBuild (version time : String) (model : Model) (report : Report) : Bundle where
  version := version
  generatedAt := time
  warnings := report.warningLines
  model := model

/-- The number of commands in a bundle. -/
def commandCount (bundle : Bundle) : Nat :=
  bundle.model.commands.length

end Bundle

end CommandDoc
