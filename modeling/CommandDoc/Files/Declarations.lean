import CommandDoc.Data.Signature
import CommandDoc.Files.Error
import CommandDoc.Files.Tree
import CommandDoc.Json.Reader
import CommandDoc.Yaml.Reader

/-!
# Declaration files

Declarations are read from files, which are given one by one or by the folder they are in.

Main definitions:

- `FileTree.declarationPaths`: the declaration files that some paths lead to.
- `FileTree.readUnits`: the source units in files.
-/

namespace CommandDoc

/-! ## Which files hold declarations -/

/-- The name of the settings file in a folder. It holds no declarations. -/
def settingsFileName : String := ".cmdspec.yml"

/-- The extensions of declaration files. -/
def declarationExtensions : List String := ["json", "yaml", "yml"]

/-- Whether a path has the extension of a declaration file. -/
def Path.isDeclaration (path : Path) : Bool :=
  (path.extension?.map declarationExtensions.contains).getD false

namespace FileTree

/-- The declaration files in a folder, but not in the folders inside of it. -/
def declarationsIn (tree : FileTree) (folder : Path) : List Path :=
  ((tree.namesIn folder).map folder.join).filter fun path =>
    tree.isFile path && path.isDeclaration && path.name? != some settingsFileName

/-- The declaration files that a path leads to. -/
def declarationsAt (tree : FileTree) (path : Path) : Except FileError (List Path) :=
  if tree.isFolder path then .ok (tree.declarationsIn path)
  else if tree.isFile path then
    if path.isDeclaration then .ok [path] else .error (.wrongExtension path)
  else .error (.missing path)

end FileTree

/-- Paths in ascending order, of those with the same steps only the first. -/
def Path.sortFirst (paths : List Path) : List Path :=
  let step (sorted : List (List Path.Step × Path)) (path : Path) :=
    Ordered.update Path.stepsBefore path.steps (fun first => first.getD path) sorted
  (paths.foldl step []).map Prod.snd

namespace FileTree

/-- The declaration files that some paths lead to, in ascending order. -/
def declarationPaths (tree : FileTree) (paths : List Path) : Except FileError (List Path) := do
  if paths.isEmpty then throw .noPaths
  let found ← paths.mapM tree.declarationsAt
  let sorted := Path.sortFirst found.flatten
  if sorted.isEmpty then throw .nothingFound
  return sorted

/-! ## Reading -/

/-- The source units in a file, which is JSON or YAML by its extension. -/
def readUnit (tree : FileTree) (path : Path) : Except FileError (List SourceUnit) :=
  match tree.readText? path with
  | none => .error .inaccessible
  | some text =>
    if path.extension? == some "json" then
      match (Json.read? text).bind SourceUnit.listOfData? with
      | some units => .ok units
      | none => .error .malformedJson
    else
      match (Yaml.read? text).bind SourceUnit.listOfData? with
      | some units => .ok units
      | none => .error .malformedYaml

/-- The source units in some files. -/
def readUnits (tree : FileTree) (paths : List Path) : Except FileError (List SourceUnit) := do
  return (← paths.mapM tree.readUnit).flatten

end FileTree

end CommandDoc
