import CommandDoc.Files.Path

/-!
# Why files cannot be used

Main definitions:

- `FileError` and `FileError.message`.
-/

namespace CommandDoc

/-- What is wrong with files. -/
inductive FileError where
  /-- A file cannot be read or written as text. -/
  | inaccessible
  /-- A file does not hold the JSON that is expected. -/
  | malformedJson
  /-- A file does not hold the YAML that is expected. -/
  | malformedYaml
  /-- No path is given. -/
  | noPaths
  /-- A file has a name that declaration files do not have. -/
  | wrongExtension (path : Path)
  /-- A path leads nowhere. -/
  | missing (path : Path)
  /-- No path leads to a declaration file. -/
  | nothingFound
  deriving Repr, DecidableEq

/-- What is said about it. -/
def FileError.message : FileError → String
  | inaccessible => "IO error: the file cannot be opened"
  | malformedJson => "JSON error: the text is not what is expected"
  | malformedYaml => "YAML error: the text is not what is expected"
  | noPaths => "No declaration paths were provided"
  | wrongExtension path => "Declaration file '" ++ path.text ++ "' must end in .json, .yaml or .yml"
  | missing path => "Declaration path '" ++ path.text ++ "' does not exist"
  | nothingFound => "No declaration files found in provided paths"

end CommandDoc
