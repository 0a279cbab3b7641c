import CommandDoc.Files.Tree
import CommandDoc.Proofs.Files.Path
import CommandDoc.Proofs.Ordered

/-!
# Places in trees of files

A place is given by the names on the way to it from the topmost folder.  Paths to one place can be written in
many ways; what they have in common can be said about the place instead.

Main definitions:

- `FileEntry.IsProper`: all names in a tree can stand in paths.
- `FileTree.HasFileAt`: there is a file at a place.

Main results:

- Theorem `FileTree.follow?_append`: pieces are followed one part after the other.
- Theorem `FileTree.locate?_eq_of_isDescent`: a path that only goes down leads below the working folder by its
  names.
- Theorem `FileTree.locate?_join`: what the path to something in a folder leads to.
-/

namespace CommandDoc

/-! ## Entries -/

namespace FileEntry

/-- Everything in the folders has a name that can stand in a path. -/
inductive IsProper : FileEntry → Prop
  | file (text : Option String) : IsProper (.file text)
  | folder {entries : List (String × FileEntry)} (hnames : ∀ entry ∈ entries, Path.IsEntryName entry.1)
      (hinner : ∀ entry ∈ entries, IsProper entry.2) : IsProper (.folder entries)

/-- What is found in a proper tree is proper. -/
theorem IsProper.find? {entry inner : FileEntry} {names : List String} (h : entry.IsProper)
    (hfind : entry.find? names = some inner) : inner.IsProper := by
  induction names generalizing entry with
  | nil =>
    cases h <;> cases hfind
    · exact .file _
    · exact .folder ‹_› ‹_›
  | cons name names ih =>
    cases h with
    | file text => cases hfind
    | @folder entries hnames hinner =>
      obtain ⟨next, hnext, hrest⟩ := Option.bind_eq_some_iff.mp hfind
      exact ih (hinner _ (Ordered.mem_of_find?_eq_some hnext)) hrest

/-- A longer way is walked in two parts. -/
theorem find?_append (entry : FileEntry) (names more : List String) :
    entry.find? (names ++ more) = (entry.find? names).bind fun inner => inner.find? more := by
  induction names generalizing entry with
  | nil => cases entry <;> simp [FileEntry.find?]
  | cons name names ih =>
    cases entry with
    | file text => rfl
    | folder entries =>
      rw [List.cons_append, FileEntry.find?, FileEntry.find?, Option.bind_assoc]
      exact congrArg _ (funext fun inner => ih inner)

end FileEntry

namespace FileTree

variable {tree : FileTree}

/-! ## Places -/

/-- There is a file at a place. -/
def HasFileAt (tree : FileTree) (place : List String) : Prop :=
  ∃ text, tree.root.find? place = some (.file text)

/-- There is a folder at a place exactly if one is found there. -/
theorem hasFolder_iff {place : List String} :
    tree.hasFolder place = true ↔ ∃ entries, tree.root.find? place = some (.folder entries) := by
  unfold hasFolder
  cases tree.root.find? place with
  | none => simp
  | some entry => cases entry <;> simp [FileEntry.isFolder]

/-- Where there is a file there is no folder. -/
theorem HasFileAt.hasFolder_eq_false {place : List String} (h : tree.HasFileAt place) :
    tree.hasFolder place = false := by
  obtain ⟨text, hfind⟩ := h
  rw [hasFolder, hfind]
  rfl

/-- What has a file in it is a folder, which has the name of the file among its names. -/
theorem HasFileAt.folder {place : List String} {name : String} (h : tree.HasFileAt (place ++ [name])) :
    ∃ entries, tree.root.find? place = some (.folder entries) ∧ name ∈ entries.map Prod.fst := by
  obtain ⟨text, hfind⟩ := h
  rw [FileEntry.find?_append] at hfind
  obtain ⟨outer, houter, hinner⟩ := Option.bind_eq_some_iff.mp hfind
  cases outer with
  | file text => cases hinner
  | folder entries =>
    obtain ⟨inner, hname, -⟩ := Option.bind_eq_some_iff.mp hinner
    exact ⟨entries, houter, List.mem_map_of_mem (Ordered.mem_of_find?_eq_some hname)⟩

/-- A path is a folder exactly if it is located at one. -/
theorem isFolder_iff {path : Path} :
    tree.isFolder path = true ↔ ∃ place, tree.locate? path = some place ∧ tree.hasFolder place = true := by
  unfold isFolder entry hasFolder
  cases tree.locate? path <;> simp

/-- A located path is a folder if its place has one. -/
theorem isFolder_eq {path : Path} {place : List String} (hplace : tree.locate? path = some place) :
    tree.isFolder path = tree.hasFolder place := by
  rw [isFolder, entry, hplace]
  rfl

/-- A folder is not a file. -/
theorem isFile_eq_false {path : Path} (h : tree.isFolder path = true) : tree.isFile path = false := by
  rw [isFolder] at h
  rw [isFile]
  cases hentry : tree.entry path with
  | none => rfl
  | some entry =>
    rw [hentry] at h
    have hfolder : entry.isFolder = true := h
    simp [hfolder]

/-- A path is a file exactly if it is located at one. -/
theorem isFile_iff {path : Path} :
    tree.isFile path = true ↔ ∃ place, tree.locate? path = some place ∧ tree.HasFileAt place := by
  unfold isFile entry HasFileAt
  cases tree.locate? path with
  | none => simp
  | some place =>
    cases hfind : tree.root.find? place with
    | none => simp [hfind]
    | some entry => cases entry <;> simp [hfind, FileEntry.isFolder]

/-- The names in a folder are known from its place. -/
theorem mem_namesIn_iff {path : Path} {place : List String} (hplace : tree.locate? path = some place)
    {name : String} :
    name ∈ tree.namesIn path ↔
      ∃ entries, tree.root.find? place = some (.folder entries) ∧ name ∈ entries.map Prod.fst := by
  rw [namesIn, entry, hplace, Option.bind_some]
  cases tree.root.find? place with
  | none => simp
  | some entry => cases entry <;> simp

/-! ## Following paths -/

/-- Pieces are followed one part after the other. -/
theorem follow?_append (tree : FileTree) (names : List String) (pieces more : List (List Char)) :
    tree.follow? names (pieces ++ more)
      = (tree.follow? names pieces).bind fun place => tree.follow? place more := by
  induction pieces generalizing names with
  | nil => rfl
  | cons piece pieces ih =>
    rw [List.cons_append, follow?, follow?]
    split
    · rfl
    · split
      · exact ih _
      · split <;> exact ih _

/-- Pieces can be followed only from a folder. -/
theorem hasFolder_of_follow? {names place : List String} {pieces : List (List Char)}
    (h : tree.follow? names pieces = some place) (hne : pieces ≠ []) : tree.hasFolder names = true := by
  cases pieces with
  | nil => exact absurd rfl hne
  | cons piece pieces =>
    by_contra hnone
    rw [follow?, if_pos (by simpa using hnone)] at h
    cases h

/-- Pieces that do not go up lead further down by the names among them. -/
theorem follow?_eq_append {names place : List String} {pieces : List (List Char)}
    (hup : ['.', '.'] ∉ pieces) (h : tree.follow? names pieces = some place) :
    place = names ++ pieces.filterMap Path.nameOf? := by
  induction pieces generalizing names with
  | nil =>
    cases h
    exact (List.append_nil _).symm
  | cons piece pieces ih =>
    rw [List.mem_cons, not_or] at hup
    have hfolder := hasFolder_of_follow? h (List.cons_ne_nil _ _)
    rw [follow?, if_neg (by simp [hfolder])] at h
    cases hfiller : Path.isFiller piece with
    | true =>
      rw [if_pos hfiller] at h
      rw [List.filterMap_cons_none (Path.nameOf?_eq_none hfiller)]
      exact ih hup.2 h
    | false =>
      rw [if_neg (by simp [hfiller]), if_neg (by simpa using Ne.symm hup.1)] at h
      rw [List.filterMap_cons_some (Path.nameOf?_eq_some hfiller (Ne.symm hup.1)), ih hup.2 h, List.append_assoc]
      rfl

/-- The empty path is located nowhere. -/
theorem text_ne_of_locate? {path : Path} {place : List String} (h : tree.locate? path = some place) :
    path.text ≠ "" := by
  intro hempty
  rw [locate?, if_pos (by rw [hempty]; rfl)] at h
  cases h

/-- A located path is followed from where it starts. -/
theorem follow?_of_locate? {path : Path} {place : List String} (h : tree.locate? path = some place) :
    tree.follow? (tree.startOf path) path.pieces = some place := by
  rwa [locate?, if_neg (by simpa using text_ne_of_locate? h)] at h

/-- A path that only goes down starts in the working folder. -/
theorem startOf_of_isDescent {path : Path} (h : path.IsDescent) : tree.startOf path = tree.workingFolder := by
  rw [startOf, if_neg (by simpa using h.head?_ne)]

/-- A path that only goes down leads below the working folder by its names. -/
theorem locate?_eq_of_isDescent {path : Path} (h : path.IsDescent) {place : List String}
    (hplace : tree.locate? path = some place) : place = tree.workingFolder ++ path.downs := by
  have hfollow := follow?_of_locate? hplace
  rw [startOf_of_isDescent h] at hfollow
  rw [follow?_eq_append h.not_mem_pieces hfollow, Path.downs_eq]

/-- If such a path is located, the working folder is there. -/
theorem hasFolder_workingFolder {path : Path} (h : path.IsDescent) {place : List String}
    (hplace : tree.locate? path = some place) : tree.hasFolder tree.workingFolder = true := by
  have hfollow := follow?_of_locate? hplace
  rw [startOf_of_isDescent h] at hfollow
  exact hasFolder_of_follow? hfollow path.pieces_ne_nil

/-- The path to something in a folder leads there, whether the path to the folder ends with a slash or not. -/
theorem locate?_join {folder : Path} {place : List String} {name : String}
    (hplace : tree.locate? folder = some place) (hfolder : tree.hasFolder place = true)
    (hname : Path.IsEntryName name) : tree.locate? (folder.join name) = some (place ++ [name]) := by
  have hne := text_ne_of_locate? hplace
  have hempty : (folder.join name).text.isEmpty = false := by
    rw [Path.join]
    split <;> simp [hne]
  have hstart : tree.startOf (folder.join name) = tree.startOf folder := by
    obtain ⟨c, cs, htext⟩ := List.exists_cons_of_ne_nil (mt String.toList_eq_nil_iff.mp hne)
    rw [startOf, startOf, Path.join]
    split <;> simp [htext]
  obtain ⟨outer, hjoin, hpieces⟩ := Path.exists_pieces_join folder hname.2 hne
  have houter : tree.follow? (tree.startOf folder) outer = some place := by
    have hfollow := follow?_of_locate? hplace
    rcases hpieces with hpieces | hpieces
    · rwa [hpieces] at hfollow
    · rw [hpieces, follow?_append] at hfollow
      obtain ⟨reached, hreached, hlast⟩ := Option.bind_eq_some_iff.mp hfollow
      have hsame : place = reached ++ [] := follow?_eq_append (by simp) hlast
      rwa [hsame, List.append_nil]
  have hstep := hname.1
  simp only [List.mem_cons, List.not_mem_nil, or_false, not_or] at hstep
  rw [locate?, if_neg (by simp [hempty]), hstart, hjoin, follow?_append, houter, Option.bind_some, follow?,
    if_neg (by simp [hfolder]), if_neg (by simp [Path.isFiller, hstep]), if_neg (by simpa using hstep.2.2),
    String.ofList_toList]
  rfl

end FileTree

end CommandDoc
