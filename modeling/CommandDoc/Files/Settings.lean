import CommandDoc.Data.Settings
import CommandDoc.Files.Declarations
import CommandDoc.Yaml.Printer
import CommandDoc.Yaml.Settings

/-!
# Settings files

Main definitions:

- `FileTree.readSettings` and `FileTree.writeSettings`.
- `FileTree.findSettings?`: the settings file that goes with some declaration files.
-/

namespace CommandDoc

namespace FileTree

/-- The settings in a file. -/
def readSettings (tree : FileTree) (path : Path) : Except FileError Settings :=
  match tree.entry path with
  | none => .error .inaccessible
  | some (.file (some text)) =>
    match Settings.ofYaml? text with
    | some settings => .ok settings
    | none => .error .malformedYaml
  | some _ => .error .malformedYaml

/-- Write settings into a file. -/
def writeSettings (tree : FileTree) (path : Path) (settings : Settings) : Except FileError FileTree :=
  match tree.write? path (some (Yaml.render settings.toData)) with
  | some written => .ok written
  | none => .error .inaccessible

/-- Where settings can be for what a path leads to: in the folder, or next to the file. -/
def settingsPath? (tree : FileTree) (path : Path) : Option Path :=
  if tree.isFolder path then some (path.join settingsFileName)
  else path.parent?.map fun folder => folder.join settingsFileName

/-- The first settings file for some declaration paths. -/
def findSettings? (tree : FileTree) (paths : List Path) : Option Path :=
  (paths.filterMap tree.settingsPath?).find? tree.isFile

end FileTree

end CommandDoc
