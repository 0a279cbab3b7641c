import CommandDoc.Files.Declarations
import CommandDoc.Proofs.Except
import CommandDoc.Proofs.Files.Tree

/-!
# Which declaration files a path gives

A path gives a file itself or the declaration files in a folder.  The files that several paths give are sorted
by their steps.  Of paths with the same steps the first stays, which may be spelled in another way than the
rest.

Main definitions:

- `HasDeclarationExtension`: a name that ends as the names of declaration files do.
- `FileTree.Contributes`: the places of the files that naming a path asks for.

Main results:

- Theorem `Path.map_steps_sortFirst`: sorting paths sorts their steps.
- Theorem `Path.isDeclaration_iff`: the test of an extension looks at the name only.
- Theorems `FileTree.exists_contributes_of_mem` and `FileTree.exists_mem_of_contributes`: a path gives the files
  that naming it asks for, and no others.
-/

namespace CommandDoc

/-! ## Sorting paths -/

namespace Path

/-- Give a path its place among sorted ones, if no path with its steps has it. -/
def keepFirst (sorted : List (List Step × Path)) (path : Path) : List (List Step × Path) :=
  Ordered.update stepsBefore path.steps (fun first => first.getD path) sorted

theorem sortFirst_eq (paths : List Path) : sortFirst paths = (paths.foldl keepFirst []).map Prod.snd :=
  rfl

theorem mem_keepFirst {sorted : List (List Step × Path)} {path : Path} {entry : List Step × Path}
    (h : entry ∈ keepFirst sorted path) : entry ∈ sorted ∨ entry = (path.steps, path) := by
  induction sorted with
  | nil => exact Or.inr (List.mem_singleton.mp h)
  | cons first sorted ih =>
    rw [keepFirst, Ordered.update] at h
    split at h
    · rcases List.mem_cons.mp h with rfl | h
      · exact Or.inr rfl
      · exact Or.inl h
    · split at h
      · rcases List.mem_cons.mp h with rfl | h
        · exact Or.inl List.mem_cons_self
        · exact (ih h).imp_left (List.mem_cons_of_mem _)
      · exact Or.inl h

theorem mem_foldl_keepFirst {paths : List Path} {sorted : List (List Step × Path)} {entry : List Step × Path}
    (h : entry ∈ paths.foldl keepFirst sorted) :
    entry ∈ sorted ∨ ∃ path ∈ paths, entry = (path.steps, path) := by
  induction paths generalizing sorted with
  | nil => exact Or.inl h
  | cons path paths ih =>
    rcases ih h with h | ⟨later, hlater, rfl⟩
    · rcases mem_keepFirst h with h | rfl
      · exact Or.inl h
      · exact Or.inr ⟨path, List.mem_cons_self, rfl⟩
    · exact Or.inr ⟨later, List.mem_cons_of_mem _ hlater, rfl⟩

theorem map_fst_foldl_keepFirst {paths : List Path} {sorted : List (List Step × Path)}
    {before : List (List Step)} (h : sorted.map Prod.fst = Ordered.sortDistinct stepsBefore before) :
    (paths.foldl keepFirst sorted).map Prod.fst
      = Ordered.sortDistinct stepsBefore (before ++ paths.map steps) := by
  induction paths generalizing sorted before with
  | nil => simpa using h
  | cons path paths ih =>
    have hnext : (keepFirst sorted path).map Prod.fst
        = Ordered.sortDistinct stepsBefore (before ++ [path.steps]) := by
      rw [keepFirst, Ordered.map_fst_update, h, Ordered.insertDistinct_sortDistinct stepsBefore_strictOrder]
    rw [List.foldl_cons, ih hnext, List.append_assoc]
    rfl

/-- The steps of the sorted paths are those of all paths. -/
theorem map_steps_sortFirst (paths : List Path) :
    (sortFirst paths).map steps = Ordered.sortDistinct stepsBefore (paths.map steps) := by
  have hkeys : (paths.foldl keepFirst []).map Prod.fst
      = Ordered.sortDistinct stepsBefore ([] ++ paths.map steps) :=
    map_fst_foldl_keepFirst rfl
  rw [sortFirst_eq, List.map_map, ← List.nil_append (paths.map steps), ← hkeys]
  refine List.map_congr_left fun entry hentry => ?_
  rcases mem_foldl_keepFirst hentry with h | ⟨path, -, rfl⟩
  · cases h
  · rfl

theorem mem_of_mem_sortFirst {paths : List Path} {path : Path} (h : path ∈ sortFirst paths) : path ∈ paths := by
  obtain ⟨entry, hentry, rfl⟩ := List.mem_map.mp h
  rcases mem_foldl_keepFirst hentry with h | ⟨path, hpath, rfl⟩
  · cases h
  · exact hpath

theorem pairwise_sortFirst (paths : List Path) : (sortFirst paths).Pairwise fun p q => p.before q = true := by
  have hsteps := Ordered.pairwise_sortDistinct stepsBefore_strictOrder (paths.map steps)
  rw [← map_steps_sortFirst] at hsteps
  exact List.pairwise_map.mp hsteps

/-- Of paths with the same steps one is kept. -/
theorem exists_mem_sortFirst {paths : List Path} {path : Path} (h : path ∈ paths) :
    ∃ first ∈ sortFirst paths, first.steps = path.steps := by
  have hsteps := (Ordered.mem_sortDistinct stepsBefore_strictOrder).mpr (List.mem_map_of_mem (f := steps) h)
  rw [← map_steps_sortFirst] at hsteps
  exact List.mem_map.mp hsteps

end Path

/-! ## Names of declaration files -/

/-- The name has the extension of a declaration file, with something in front of it. -/
def HasDeclarationExtension (name : String) : Prop :=
  ∃ base extension, base ≠ "" ∧ extension ∈ declarationExtensions ∧ name = base ++ "." ++ extension

theorem Path.isDeclaration_iff {path : Path} {name : String} (hname : path.name? = some name) :
    path.isDeclaration = true ↔ HasDeclarationExtension name := by
  have hiff : path.isDeclaration = true
      ↔ ∃ cs, extensionOf? name.toList = some cs ∧ String.ofList cs ∈ declarationExtensions := by
    rw [isDeclaration, extension?, hname, Option.bind_some]
    cases extensionOf? name.toList <;> simp
  rw [hiff]
  constructor
  · rintro ⟨cs, hcs, hmem⟩
    obtain ⟨base, hbase, -, heq⟩ := extensionOf?_eq_some_iff.mp hcs
    refine ⟨String.ofList base, String.ofList cs, by simpa using hbase, hmem, ?_⟩
    simp [← String.toList_inj, heq]
  · rintro ⟨base, extension, hbase, hmem, rfl⟩
    have hdot : ∀ s ∈ declarationExtensions, '.' ∉ s.toList := by decide
    refine ⟨extension.toList, extensionOf?_eq_some_iff.mpr ⟨base.toList, by simpa using hbase, hdot _ hmem, ?_⟩,
      by simpa using hmem⟩
    simp

namespace FileTree

variable {tree : FileTree}

/-! ## What one path contributes -/

/-- Naming a path asks for the file at a place: the path leads to it, or it is a declaration file, and not the
settings, in the folder that the path leads to. -/
def Contributes (tree : FileTree) (input : Path) (place : List String) : Prop :=
  tree.HasFileAt place ∧
    (tree.locate? input = some place ∨
      ∃ folder name, tree.locate? input = some folder ∧ place = folder ++ [name] ∧
        HasDeclarationExtension name ∧ name ≠ settingsFileName)

theorem isEntryName_of_mem (hproper : tree.root.IsProper) {place : List String}
    {entries : List (String × FileEntry)} (hfind : tree.root.find? place = some (.folder entries))
    {name : String} (hname : name ∈ entries.map Prod.fst) : Path.IsEntryName name := by
  obtain ⟨entry, hentry, rfl⟩ := List.mem_map.mp hname
  cases hproper.find? hfind with
  | folder hnames => exact hnames entry hentry

theorem mem_declarationsIn_iff (hproper : tree.root.IsProper) {input : Path} {folder : List String}
    (hplace : tree.locate? input = some folder) (hfolder : tree.hasFolder folder = true) {path : Path} :
    path ∈ tree.declarationsIn input ↔
      ∃ name, Path.IsEntryName name ∧ path = input.join name ∧ tree.HasFileAt (folder ++ [name]) ∧
        HasDeclarationExtension name ∧ name ≠ settingsFileName := by
  have hpath : ∀ name, Path.IsEntryName name →
      ((tree.isFile (input.join name) && (input.join name).isDeclaration
          && (input.join name).name? != some settingsFileName) = true ↔
        tree.HasFileAt (folder ++ [name]) ∧ HasDeclarationExtension name ∧ name ≠ settingsFileName) := by
    intro name hname
    rw [Bool.and_eq_true, Bool.and_eq_true, isFile_iff, locate?_join hplace hfolder hname,
      Path.isDeclaration_iff (Path.name?_join input hname), Path.name?_join input hname]
    simp [and_assoc]
  rw [declarationsIn, List.mem_filter, List.mem_map]
  constructor
  · rintro ⟨⟨name, hmem, rfl⟩, hkept⟩
    obtain ⟨entries, hfind, hentry⟩ := (mem_namesIn_iff hplace).mp hmem
    have hname := isEntryName_of_mem hproper hfind hentry
    exact ⟨name, hname, rfl, (hpath name hname).mp hkept⟩
  · rintro ⟨name, hname, rfl, hkept⟩
    exact ⟨⟨name, (mem_namesIn_iff hplace).mpr hkept.1.folder, rfl⟩, (hpath name hname).mpr hkept⟩

/-- Only a folder and a declaration file can be named. -/
theorem declarationsAt_eq_ok_iff {input : Path} {found : List Path} :
    tree.declarationsAt input = .ok found ↔
      tree.isFolder input = true ∧ found = tree.declarationsIn input ∨
        tree.isFile input = true ∧ input.isDeclaration = true ∧ found = [input] := by
  rw [declarationsAt]
  by_cases hfolder : tree.isFolder input = true
  · have hfile := isFile_eq_false hfolder
    rw [if_pos hfolder]
    constructor
    · intro h
      cases h
      exact Or.inl ⟨hfolder, rfl⟩
    · rintro (⟨-, rfl⟩ | ⟨hfile', -⟩)
      · rfl
      · rw [hfile] at hfile'
        cases hfile'
  · rw [if_neg hfolder]
    split
    · next hfile =>
      split
      · next hext => simp [hfolder, hfile, hext, eq_comm]
      · next hext => simp [hfolder, hext]
    · next hfile => simp [hfolder, hfile]

/-- Every path that is found leads to a file that is asked for, and is written as the path named. -/
theorem exists_contributes_of_mem (hproper : tree.root.IsProper) {input : Path} {found : List Path}
    (h : tree.declarationsAt input = .ok found) {path : Path} (hpath : path ∈ found) :
    ∃ place, tree.Contributes input place ∧ tree.locate? path = some place ∧
      path.startsHere = input.startsHere ∧ (input.IsDescent → path.IsDescent) := by
  rcases declarationsAt_eq_ok_iff.mp h with ⟨hfolder, rfl⟩ | ⟨hfile, -, rfl⟩
  · obtain ⟨folder, hplace, hhas⟩ := isFolder_iff.mp hfolder
    obtain ⟨name, hname, rfl, hat, hext, hsettings⟩ := (mem_declarationsIn_iff hproper hplace hhas).mp hpath
    exact ⟨folder ++ [name], ⟨hat, Or.inr ⟨folder, name, hplace, rfl, hext, hsettings⟩⟩,
      locate?_join hplace hhas hname, Path.startsHere_join input hname, fun hdown => hdown.join hname⟩
  · obtain rfl := List.mem_singleton.mp hpath
    obtain ⟨place, hplace, hat⟩ := isFile_iff.mp hfile
    exact ⟨place, ⟨hat, Or.inl hplace⟩, hplace, rfl, id⟩

/-- Every file that is asked for is found. -/
theorem exists_mem_of_contributes (hproper : tree.root.IsProper) {input : Path} {found : List Path}
    (h : tree.declarationsAt input = .ok found) {place : List String} (hplace : tree.Contributes input place) :
    ∃ path ∈ found, tree.locate? path = some place := by
  obtain ⟨hat, hdirect | ⟨folder, name, hlocate, rfl, hext, hsettings⟩⟩ := hplace
  · rcases declarationsAt_eq_ok_iff.mp h with ⟨hfolder, -⟩ | ⟨-, -, rfl⟩
    · rw [isFolder_eq hdirect, hat.hasFolder_eq_false] at hfolder
      cases hfolder
    · exact ⟨input, List.mem_singleton_self _, hdirect⟩
  · obtain ⟨entries, hfind, hmem⟩ := hat.folder
    have hhas : tree.hasFolder folder = true := hasFolder_iff.mpr ⟨entries, hfind⟩
    have hname := isEntryName_of_mem hproper hfind hmem
    rcases declarationsAt_eq_ok_iff.mp h with ⟨-, rfl⟩ | ⟨hfile, -, -⟩
    · exact ⟨input.join name,
        (mem_declarationsIn_iff hproper hlocate hhas).mpr ⟨name, hname, rfl, hat, hext, hsettings⟩,
        locate?_join hlocate hhas hname⟩
    · rw [isFile_eq_false (by rw [isFolder_eq hlocate, hhas])] at hfile
      cases hfile

end FileTree

end CommandDoc
