import CommandDoc.Data.Model
import CommandDoc.Json.Printer
import CommandDoc.View.Markdown
import CommandDoc.View.Table
import CommandDoc.Yaml.Printer

/-!
# Output formats

Main definitions:

- `Format` with `Model.render`, `Report.render` and `Bundle.render`.
-/

namespace CommandDoc

/-- A format in which models and reports are shown. -/
inductive Format where
  | json
  | yaml
  | markdown
  | table
  deriving Repr, DecidableEq

namespace Format

/-- Every format. -/
def all : List Format := [json, yaml, markdown, table]

/-- The name of a format. -/
def name : Format → String
  | json => "json"
  | yaml => "yaml"
  | markdown => "markdown"
  | table => "table"

/-- The format with a name. -/
def ofName? (name : String) : Option Format :=
  all.find? (·.name == name)

end Format

/-- A model in a format. -/
def Model.render (m : Model) : Format → String
  | .json => Json.pretty m.toData
  | .yaml => Yaml.render m.toData
  | .markdown => m.markdown
  | .table => m.table

/-- A report in a format. -/
def Report.render (r : Report) : Format → String
  | .json => Json.pretty r.toData
  | .yaml => Yaml.render r.toData
  | .markdown => r.markdown
  | .table => r.table

/-- A bundle, which is always shown as JSON. -/
def Bundle.render (b : Bundle) : String :=
  Json.pretty b.toData

end CommandDoc
