import CommandDoc.Files.Path

/-!
# Trees of files

Files and folders as a value. A path is followed step by step from the working folder, as long as there
are folders on its way.

Main definitions:

- `FileEntry` and `FileTree`.
- `FileTree.locate?` follows a path.
- `FileTree.readText?`, `FileTree.namesIn`, `FileTree.write?` and `FileTree.makeFolders?`.
-/

namespace CommandDoc

/-- A file, or a folder with what is in it. -/
inductive FileEntry where
  /-- A file with its text, which is absent if the content is not valid text. -/
  | file (text : Option String)
  /-- A folder, with the names of its entries. -/
  | folder (entries : List (String × FileEntry))
  deriving Repr

namespace FileEntry

/-- What is at the end of a list of names. -/
def find? : FileEntry → List String → Option FileEntry
  | entry, [] => some entry
  | .folder entries, name :: names => (Ordered.find? name entries).bind fun inner => inner.find? names
  | .file _, _ :: _ => none

/-- Whether an entry is a folder. -/
def isFolder : FileEntry → Bool
  | folder _ => true
  | file _ => false

/-- Put an entry at the end of a list of names; on the way there must be folders. -/
def put? (new : FileEntry) : List String → FileEntry → Option FileEntry
  | [], _ => some new
  | _ :: _, .file _ => none
  | [name], .folder entries => some (.folder (Ordered.put Ordered.stringBefore name new entries))
  | name :: names, .folder entries => do
    let inner ← Ordered.find? name entries
    let changed ← put? new names inner
    return .folder (Ordered.put Ordered.stringBefore name changed entries)

end FileEntry

/-- All files, and the folder in which paths start. -/
structure FileTree where
  /-- The topmost folder. -/
  root : FileEntry := .folder []
  /-- The names on the way to the working folder. -/
  workingFolder : List String := []
  deriving Repr

namespace FileTree

/-! ## Following paths -/

/-- Whether there is a folder at the end of a list of names. -/
def hasFolder (tree : FileTree) (names : List String) : Bool :=
  ((tree.root.find? names).map FileEntry.isFolder).getD false

/-- Follow pieces of a path from a folder. Only the last piece can name something that is not there. -/
def follow? (tree : FileTree) : List String → List (List Char) → Option (List String)
  | names, [] => some names
  | names, piece :: pieces =>
    if !tree.hasFolder names then none
    else if Path.isFiller piece then tree.follow? names pieces
    else if piece == ['.', '.'] then tree.follow? names.dropLast pieces
    else tree.follow? (names ++ [String.ofList piece]) pieces

/-- Where the pieces of a path are followed from. -/
def startOf (tree : FileTree) (path : Path) : List String :=
  if path.text.toList.head? == some '/' then [] else tree.workingFolder

/-- The names on the way to where a path leads. -/
def locate? (tree : FileTree) (path : Path) : Option (List String) :=
  if path.text.isEmpty then none else tree.follow? (tree.startOf path) path.pieces

/-- What a path leads to. -/
def entry (tree : FileTree) (path : Path) : Option FileEntry :=
  (tree.locate? path).bind tree.root.find?

/-! ## Reading -/

/-- Whether a path leads to a folder. -/
def isFolder (tree : FileTree) (path : Path) : Bool :=
  ((tree.entry path).map FileEntry.isFolder).getD false

/-- Whether a path leads to a file. -/
def isFile (tree : FileTree) (path : Path) : Bool :=
  ((tree.entry path).map fun entry => !entry.isFolder).getD false

/-- The names in the folder that a path leads to. -/
def namesIn (tree : FileTree) (path : Path) : List String :=
  match tree.entry path with
  | some (.folder entries) => entries.map Prod.fst
  | _ => []

/-- The text of the file that a path leads to. -/
def readText? (tree : FileTree) (path : Path) : Option String :=
  match tree.entry path with
  | some (.file text) => text
  | _ => none

/-! ## Writing -/

/-- Write a file into a folder that is there already, or over a file. -/
def write? (tree : FileTree) (path : Path) (text : Option String) : Option FileTree := do
  let names ← tree.locate? path
  if tree.hasFolder names then none
  else
    let root ← FileEntry.put? (.file text) names tree.root
    return { tree with root }

/-- Make the folders that are missing on the way of some pieces. -/
def makeFoldersFrom? (tree : FileTree) : List String → List (List Char) → Option FileTree
  | names, [] => if tree.hasFolder names then some tree else none
  | names, piece :: pieces =>
    if !tree.hasFolder names then none
    else if Path.isFiller piece then tree.makeFoldersFrom? names pieces
    else if piece == ['.', '.'] then tree.makeFoldersFrom? names.dropLast pieces
    else
      let inner := names ++ [String.ofList piece]
      if (tree.root.find? inner).isSome then tree.makeFoldersFrom? inner pieces
      else
        match FileEntry.put? (.folder []) inner tree.root with
        | some root => makeFoldersFrom? { tree with root } inner pieces
        | none => none

/-- Make all folders that are missing on the way of a path. -/
def makeFolders? (tree : FileTree) (path : Path) : Option FileTree :=
  tree.makeFoldersFrom? (tree.startOf path) path.pieces

end FileTree

end CommandDoc
