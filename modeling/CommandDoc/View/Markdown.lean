import CommandDoc.Report

/-!
# Markdown

Models and reports as Markdown text: a heading for each command and node, and tables of parameters.

Main definitions:

- `Model.markdown` and `Report.markdown`.
-/

namespace CommandDoc

/-- A text in backquotes. -/
def codeSpan (s : String) : String :=
  "\x60" ++ s ++ "\x60"

/-- A table row with these cells. -/
def tableRow (cells : List String) : String :=
  "| " ++ " | ".intercalate cells ++ " |\n"

/-- A table with its head and the rule below it; one without rows is left out. -/
def markdownTable (head : String) (rows : List String) : String :=
  if rows.isEmpty then "" else head ++ String.join rows ++ "\n"

namespace Parameter

/-- The row of a flag. -/
def markdownFlagRow (p : Parameter) : String :=
  tableRow [codeSpan p.flagDisplay, p.type.spelling, p.defaultValue.getD "", p.description.getD ""]

/-- The row of an argument. -/
def markdownArgumentRow (p : Parameter) : String :=
  tableRow
    [codeSpan (if p.vararg then p.name ++ "..." else p.name),
      (p.position.map fun n => toString n.toNat).getD "", if p.required then "yes" else "no",
      p.description.getD ""]

end Parameter

/-- The tables of flags and of arguments. -/
def parametersMarkdown (parameters : List Parameter) : String :=
  markdownTable
      "| Flag | Type | Default | Description |\n|------|------|---------|-------------|\n"
      ((parameters.filter Parameter.isFlag).map Parameter.markdownFlagRow)
    ++ markdownTable
      "| Argument | Position | Required | Description |\n|----------|----------|----------|-------------|\n"
      ((parameters.filter (·.positional)).map Parameter.markdownArgumentRow)

/-- A paragraph with a blank line behind it. -/
def markdownParagraph (s : String) : String :=
  s ++ "\n\n"

/-- The flags that a group hands down, by their names. -/
def InheritedGroup.markdown (g : InheritedGroup) : String :=
  let flags := (g.parameters.filter Parameter.isFlag).map fun p => codeSpan p.flagDisplay
  if flags.isEmpty then ""
  else markdownParagraph ("**Inherited from " ++ g.declaredBy ++ ":** " ++ ", ".intercalate flags)

/-- The part of a node. -/
def Node.markdown (n : Node) : String :=
  markdownParagraph ("## " ++ n.label)
    ++ (if n.isSynthetic then markdownParagraph "_Group only, no implementing function._" else "")
    ++ (n.description.map markdownParagraph).getD ""
    ++ (if n.aliases.isEmpty then ""
      else markdownParagraph ("**Aliases:** " ++ ", ".intercalate (n.aliases.map codeSpan)))
    ++ parametersMarkdown n.parameters ++ String.join (n.inherited.map InheritedGroup.markdown)

/-- The part of a command. -/
def Command.markdown (c : Command) : String :=
  markdownParagraph ("# " ++ c.name) ++ (c.description.map markdownParagraph).getD ""
    ++ (c.package.map fun p => markdownParagraph ("**Package:** " ++ codeSpan p)).getD ""
    ++ parametersMarkdown c.parameters ++ String.join (c.nodes.map Node.markdown)

/-- A model as Markdown. -/
def Model.markdown (m : Model) : String :=
  String.join (m.commands.map Command.markdown)

/-- A report as Markdown. -/
def Report.markdown (r : Report) : String :=
  "# Build Report\n\n- **Declarations:** " ++ toString r.declarations
    ++ "\n- **Commands:** " ++ toString r.commands.length
    ++ "\n- **Subcommands:** " ++ toString r.nodeCount
    ++ "\n- **Parameters:** " ++ toString r.parameterCount ++ "\n"
    ++ (if r.hasWarnings then
        "\n## Warnings\n\n" ++ String.join (r.warningLines.map fun line => "- " ++ line ++ "\n")
      else "")

end CommandDoc
