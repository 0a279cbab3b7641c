import CommandDoc.CommandLine.Response
import Std.Time.Format

/-!
# The program

Takes over the files that an answer can hang on, finds the answer, and prints and writes what it says.

Main definitions:

- `main`.
-/

namespace CommandDoc.Program

/-- The place of a list of names in the file system. -/
def placeOf (names : List String) : String :=
  "/" ++ "/".intercalate names

/-- The text of a file, if it can be read as text. -/
def textAt (place : String) : IO (Option String) := do
  try
    return String.fromUTF8? (← IO.FS.readBinFile place)
  catch _ => return none

/-- Take over what is at the end of a list of names, unless it is there already. -/
def takeOver (files : FileTree) (names : List String) : IO FileTree := do
  if (files.root.find? names).isSome then return files
  let place := (← IO.currentDir) / placeOf names
  let entry ←
    if ← place.isDir then pure (some (FileEntry.folder []))
    else if ← place.pathExists then pure (some (FileEntry.file (← textAt (placeOf names))))
    else pure none
  match entry.bind fun entry => entry.put? names files.root with
  | some root => return { files with root }
  | none => return files

/-- Take over what a path leads to, with what is in a folder, and all on its way. -/
def takePath (files : FileTree) (path : Path) : IO FileTree := do
  let mut files := files
  let mut names := files.startOf path
  for piece in path.pieces do
    if Path.isFiller piece then continue
    if piece == ['.', '.'] then names := names.dropLast
    else names := names ++ [String.ofList piece]
    files ← takeOver files names
  if files.hasFolder names then
    let place := (← IO.currentDir) / placeOf names
    for inner in ← place.readDir do
      files ← takeOver files (names ++ [inner.fileName])
  return files

/-- The working folder, with all folders around it. -/
def takeWorkingFolder : IO FileTree := do
  let names := (← IO.currentDir).components.filter fun name => !name.isEmpty && name != "/"
  let mut files : FileTree := { workingFolder := names }
  for length in [1 : names.length + 1] do
    files ← takeOver files (names.take length)
  return files

/-- The whole standard input. -/
partial def readInput (stream : IO.FS.Stream) (sofar : ByteArray) : IO ByteArray := do
  let chunk ← stream.read 65536
  if chunk.isEmpty then return sofar else readInput stream (sofar ++ chunk)

/-- The time in the zone of Greenwich. -/
def timeNow : IO String := do
  let sinceEpoch := (← Std.Time.Timestamp.now).toDurationSinceUnixEpoch
  let now := Std.Time.PlainDateTime.ofWallTime (.ofDuration sinceEpoch)
  return now.format "uuuu-MM-dd'T'HH:mm:ss.SSSSSSSSS" ++ "+00:00"

/-- Write a text into a file, for which folders are made. -/
def writeDocument (path : Path) (text : String) : IO Unit := do
  let folder := (path.parent?.getD ⟨""⟩).text
  unless folder.isEmpty do IO.FS.createDirAll folder
  IO.FS.writeFile path.text text

end CommandDoc.Program

open CommandDoc CommandDoc.Program in
/-- Answer a command line. -/
def main (arguments : List String) : IO UInt32 := do
  let response ← match Request.ofWords? arguments with
    | none => pure .misunderstood
    | some request => do
      let files ← request.paths.foldlM takePath (← takeWorkingFolder)
      let input ←
        if request == .comment none then readInput (← IO.getStdin) .empty else pure .empty
      pure (request.answer { files, input := String.fromUTF8? input, time := ← timeNow })
  let response ← match response.document with
    | none => pure response
    | some (path, text) =>
      try
        writeDocument path text
        pure response
      catch _ => pure (Failure.unwritable path).response
  IO.print response.output
  IO.eprint response.errors
  return response.code.toUInt32
