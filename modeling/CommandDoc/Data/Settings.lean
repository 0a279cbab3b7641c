import CommandDoc.Build.Basic
import CommandDoc.Data.Param

/-!
# Settings as data

Main definitions:

- `Settings.toData` and `Settings.ofData?`.
-/

namespace CommandDoc.Settings

/-- The tree of settings. -/
def toData (s : Settings) : Data :=
  .ofFields
    [.present "reserved_names" (.texts s.reservedNames), .present "strict" (.bool s.strict),
      .optional "jobs" .nat s.jobs]

/-- Read settings. -/
def ofData? (value : Data) : Option Settings := do
  let [reservedNames, strict, jobs] ← value.slots? ["reserved_names", "strict", "jobs"] | none
  return {
    reservedNames := ← Data.orElse Data.asTexts? [] reservedNames
    strict := ← Data.orElse Data.asBool? false strict
    jobs := ← Data.maybe Data.asCount? jobs }

end CommandDoc.Settings
