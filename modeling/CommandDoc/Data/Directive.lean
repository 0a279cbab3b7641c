import CommandDoc.Comment.Directive
import CommandDoc.Data.Param

/-!
# Directives as data

Main definitions:

- `Directive.toData`.
-/

namespace CommandDoc

/-- The tree of a directive. -/
def Directive.toData (d : Directive) : Data :=
  .ofFields
    [.present "is_command" (.bool d.isCommand), .present "command" (.text d.command),
      .present "sequence" (.texts d.sequence), .optional "description" .text d.description,
      .optional "extended_help" .text d.extendedHelp, .present "aliases" (.texts d.aliases),
      .present "params" (.record (d.params.map fun (name, c) => (.name name, c.toData)))]

end CommandDoc
