import Mathlib.Data.List.Nodup
import Mathlib.Data.List.Perm.Subperm
import CommandDoc.Proofs.Files.Declarations

/-!
# Collecting declaration files

Files can be named themselves and by their folder, and each of these paths can be spelled in many ways.  The
files that are found are told apart by the steps of their paths.  If all inputs only go down, the steps of a path
say which file it leads to, and besides only whether it has a dot in front.  So a file is found twice exactly if
some inputs contribute it with that dot and some without.

Main definitions:

- `Gathers`: the paths that some inputs give, before they are sorted.
- `LoadsAlike`: two lists of paths from which the same units are read.

Main results:

- Theorem `steps_eq_iff`: when two paths are taken for one.
- Theorem `exists_mem_iff`: which files are found, with a dot in front and without.
- Theorem `declarationPaths_collects`: what is found, how often, and what the inputs may be replaced by.
-/

namespace CommandDoc.FileTree

variable {tree : FileTree}

/-! ## What is gathered -/

/-- A path is among those that some inputs give, before they are sorted. -/
def Gathers (tree : FileTree) (inputs : List Path) (path : Path) : Prop :=
  ∃ input ∈ inputs, ∃ here, tree.declarationsAt input = .ok here ∧ path ∈ here

/-- Collecting sorts what the inputs give, of which there must be something. -/
theorem declarationPaths_eq_ok_iff {inputs found : List Path} :
    tree.declarationPaths inputs = .ok found ↔
      ∃ lists, inputs.mapM tree.declarationsAt = .ok lists ∧ Path.sortFirst lists.flatten = found ∧
        found ≠ [] := by
  by_cases hinputs : inputs = []
  · subst hinputs
    constructor
    · intro h
      cases h
    · rintro ⟨lists, hlists, rfl, hne⟩
      cases hlists
      exact absurd rfl hne
  · rw [declarationPaths, if_neg (by simpa using hinputs), bind_eq_ok_iff]
    refine exists_congr fun lists => and_congr_right fun _ => ?_
    by_cases hnone : Path.sortFirst lists.flatten = []
    · simp [hnone, bind, Except.bind, throw, throwThe, MonadExceptOf.throw]
    · simp only [hnone, List.isEmpty_iff, if_false, pure, Except.pure, Except.ok.injEq]
      exact (and_iff_left_of_imp fun heq hempty => hnone (heq.trans hempty)).symm

/-- The lists found under the inputs hold exactly the files that the inputs gather. -/
theorem mem_flatten_iff {inputs : List Path} {lists : List (List Path)}
    (h : inputs.mapM tree.declarationsAt = .ok lists) {path : Path} :
    path ∈ lists.flatten ↔ tree.Gathers inputs path := by
  rw [List.mem_flatten]
  constructor
  · rintro ⟨here, hhere, hpath⟩
    obtain ⟨input, hinput, hgives⟩ := exists_of_mem_of_mapM_eq_ok h hhere
    exact ⟨input, hinput, here, hgives, hpath⟩
  · rintro ⟨input, hinput, here, hgives, hpath⟩
    obtain ⟨same, hsame, hgives'⟩ := exists_of_mem_left (mapM_eq_ok_iff.mp h) hinput
    rw [hgives] at hgives'
    cases hgives'
    exact ⟨here, hsame, hpath⟩

/-- Collecting succeeds if every input can be named and something is gathered. -/
theorem exists_declarationPaths_iff {inputs : List Path} :
    (∃ found, tree.declarationPaths inputs = .ok found) ↔
      (∀ input ∈ inputs, ∃ here, tree.declarationsAt input = .ok here) ∧ ∃ path, tree.Gathers inputs path := by
  constructor
  · rintro ⟨found, h⟩
    obtain ⟨lists, hlists, rfl, hne⟩ := declarationPaths_eq_ok_iff.mp h
    refine ⟨fun input hinput => ?_, ?_⟩
    · obtain ⟨here, -, hhere⟩ := exists_of_mem_left (mapM_eq_ok_iff.mp hlists) hinput
      exact ⟨here, hhere⟩
    · obtain ⟨path, hpath⟩ := List.exists_mem_of_ne_nil _ hne
      exact ⟨path, (mem_flatten_iff hlists).mp (Path.mem_of_mem_sortFirst hpath)⟩
  · rintro ⟨hgive, path, hpath⟩
    cases hlists : inputs.mapM tree.declarationsAt with
    | error e =>
      obtain ⟨input, hinput, he⟩ := exists_of_mapM_eq_error hlists
      obtain ⟨here, hhere⟩ := hgive input hinput
      rw [hhere] at he
      cases he
    | ok lists =>
      obtain ⟨first, hfirst, -⟩ := Path.exists_mem_sortFirst ((mem_flatten_iff hlists).mpr hpath)
      exact ⟨_, declarationPaths_eq_ok_iff.mpr ⟨lists, hlists, rfl, List.ne_nil_of_mem hfirst⟩⟩

/-- A path of the collection is one that the inputs gather. -/
theorem gathers_of_mem {inputs found : List Path} (h : tree.declarationPaths inputs = .ok found) {path : Path}
    (hpath : path ∈ found) : tree.Gathers inputs path := by
  obtain ⟨lists, hlists, rfl, -⟩ := declarationPaths_eq_ok_iff.mp h
  exact (mem_flatten_iff hlists).mp (Path.mem_of_mem_sortFirst hpath)

/-- Up to spelling, the collection holds exactly the files that the inputs gather. -/
theorem mem_map_steps_iff {inputs found : List Path} (h : tree.declarationPaths inputs = .ok found)
    {steps : List Path.Step} :
    steps ∈ found.map Path.steps ↔ ∃ path, tree.Gathers inputs path ∧ path.steps = steps := by
  obtain ⟨lists, hlists, rfl, -⟩ := declarationPaths_eq_ok_iff.mp h
  rw [Path.map_steps_sortFirst, Ordered.mem_sortDistinct Path.stepsBefore_strictOrder, List.mem_map]
  simp only [mem_flatten_iff hlists]

/-- The collection is in the order of paths. -/
theorem pairwise_declarationPaths {inputs found : List Path} (h : tree.declarationPaths inputs = .ok found) :
    found.Pairwise fun p q => p.before q = true := by
  obtain ⟨lists, -, rfl, -⟩ := declarationPaths_eq_ok_iff.mp h
  exact Path.pairwise_sortFirst _

/-- What is found is known from its steps, up to its spelling. -/
theorem map_steps_eq {inputs inputs' found found' : List Path} (h : tree.declarationPaths inputs = .ok found)
    (h' : tree.declarationPaths inputs' = .ok found')
    (hsame : ∀ steps, steps ∈ found'.map Path.steps ↔ steps ∈ found.map Path.steps) :
    found'.map Path.steps = found.map Path.steps :=
  Ordered.eq_of_pairwise_of_mem_iff Path.stepsBefore_strictOrder
    (List.pairwise_map.mpr (pairwise_declarationPaths h')) (List.pairwise_map.mpr (pairwise_declarationPaths h))
    hsame

/-- No two paths of the collection have the same steps. -/
theorem nodup_map_steps {inputs found : List Path} (h : tree.declarationPaths inputs = .ok found) :
    (found.map Path.steps).Nodup :=
  Ordered.nodup_of_pairwise Path.stepsBefore_strictOrder (List.pairwise_map.mpr (pairwise_declarationPaths h))

/-! ## Places of what is gathered -/

/-- Of paths that go down, the steps say where they lead and whether they have a dot in front. -/
theorem steps_eq_iff {p q : Path} (hp : p.IsDescent) (hq : q.IsDescent) {place place' : List String}
    (hplace : tree.locate? p = some place) (hplace' : tree.locate? q = some place') :
    p.steps = q.steps ↔ p.startsHere = q.startsHere ∧ place = place' := by
  rw [locate?_eq_of_isDescent hp hplace, locate?_eq_of_isDescent hq hplace', List.append_cancel_left_eq]
  constructor
  · intro h
    rw [Path.startsHere, Path.startsHere, Path.downs, Path.downs, h]
    exact ⟨rfl, rfl⟩
  · rintro ⟨hdot, hdowns⟩
    rw [hp.steps_eq, hq.steps_eq, hdot, hdowns]

/-- A path among those found goes down to a file that an input contributes, and is written as that input. -/
theorem Gathers.exists_contributes (hproper : tree.root.IsProper) {inputs : List Path}
    (hdown : ∀ input ∈ inputs, input.IsDescent) {path : Path} (h : tree.Gathers inputs path) :
    path.IsDescent ∧ ∃ place, tree.locate? path = some place ∧
      ∃ input ∈ inputs, input.startsHere = path.startsHere ∧ tree.Contributes input place := by
  obtain ⟨input, hinput, here, hgives, hpath⟩ := h
  obtain ⟨place, hplace, hlocate, hdot, hdescent⟩ := exists_contributes_of_mem hproper hgives hpath
  exact ⟨hdescent (hdown input hinput), place, hlocate, input, hinput, hdot.symm, hplace⟩

section

variable (hproper : tree.root.IsProper) {inputs found : List Path} (hdown : ∀ input ∈ inputs, input.IsDescent)
  (h : tree.declarationPaths inputs = .ok found)

include hproper hdown h

/-- The files found are those that the inputs contribute, each for a dot in front and for none. -/
theorem exists_mem_iff {dotted : Bool} {place : List String} :
    (∃ path ∈ found, path.startsHere = dotted ∧ tree.locate? path = some place) ↔
      ∃ input ∈ inputs, input.startsHere = dotted ∧ tree.Contributes input place := by
  constructor
  · rintro ⟨path, hpath, rfl, hlocate⟩
    obtain ⟨-, same, hsame, input, hinput, hdot, hplace⟩ :=
      (gathers_of_mem h hpath).exists_contributes hproper hdown
    rw [hlocate] at hsame
    cases hsame
    exact ⟨input, hinput, hdot, hplace⟩
  · rintro ⟨input, hinput, rfl, hplace⟩
    obtain ⟨here, hgives⟩ := (exists_declarationPaths_iff.mp ⟨found, h⟩).1 input hinput
    obtain ⟨path, hpath, hlocate⟩ := exists_mem_of_contributes hproper hgives hplace
    obtain ⟨-, -, -, hdot, hdescent⟩ := exists_contributes_of_mem hproper hgives hpath
    -- The path that is found instead has the same steps, so it has the same dot and leads to the same file.
    obtain ⟨first, hfirst, hsteps⟩ :=
      List.mem_map.mp ((mem_map_steps_iff h).mpr ⟨path, ⟨input, hinput, here, hgives, hpath⟩, rfl⟩)
    obtain ⟨hdescent', place', hlocate', -⟩ := (gathers_of_mem h hfirst).exists_contributes hproper hdown
    obtain ⟨hsame, rfl⟩ := (steps_eq_iff hdescent' (hdescent (hdown input hinput)) hlocate' hlocate).mp hsteps
    exact ⟨first, hfirst, hsame.trans hdot, hlocate'⟩

/-- The places of the collection are those that the inputs contribute. -/
theorem mem_map_locate?_iff {location : Option (List String)} :
    location ∈ found.map tree.locate? ↔
      ∃ place, location = some place ∧ ∃ input ∈ inputs, tree.Contributes input place := by
  rw [List.mem_map]
  constructor
  · rintro ⟨path, hpath, rfl⟩
    obtain ⟨-, place, hlocate, input, hinput, -, hplace⟩ :=
      (gathers_of_mem h hpath).exists_contributes hproper hdown
    exact ⟨place, hlocate, input, hinput, hplace⟩
  · rintro ⟨place, rfl, input, hinput, hplace⟩
    obtain ⟨path, hpath, -, hlocate⟩ := (exists_mem_iff hproper hdown h).mpr ⟨input, hinput, rfl, hplace⟩
    exact ⟨path, hpath, hlocate⟩

/-- A file is found once, unless inputs with a dot in front and without one contribute it. -/
theorem nodup_map_locate?_iff :
    (found.map tree.locate?).Nodup ↔
      ∀ p ∈ inputs, ∀ q ∈ inputs, ∀ place, tree.Contributes p place → tree.Contributes q place →
        p.startsHere = q.startsHere := by
  constructor
  · intro hnodup p hp q hq place hplace hplace'
    obtain ⟨path, hpath, hdot, hlocate⟩ := (exists_mem_iff hproper hdown h).mpr ⟨p, hp, rfl, hplace⟩
    obtain ⟨path', hpath', hdot', hlocate'⟩ := (exists_mem_iff hproper hdown h).mpr ⟨q, hq, rfl, hplace'⟩
    obtain rfl := List.inj_on_of_nodup_map hnodup hpath hpath' (hlocate.trans hlocate'.symm)
    exact hdot.symm.trans hdot'
  · intro hone
    refine (List.Nodup.of_map _ (nodup_map_steps h)).map_on fun path hpath path' hpath' heq => ?_
    obtain ⟨hdescent, place, hlocate, p, hp, hdot, hplace⟩ :=
      (gathers_of_mem h hpath).exists_contributes hproper hdown
    obtain ⟨hdescent', place', hlocate', q, hq, hdot', hplace'⟩ :=
      (gathers_of_mem h hpath').exists_contributes hproper hdown
    obtain rfl : place = place' := Option.some.inj (hlocate.symm.trans (heq.trans hlocate'))
    have hsame : path.startsHere = path'.startsHere :=
      hdot.symm.trans ((hone p hp q hq place hplace hplace').trans hdot')
    exact List.inj_on_of_nodup_map (nodup_map_steps h) hpath hpath'
      ((steps_eq_iff hdescent hdescent' hlocate hlocate').mpr ⟨hsame, rfl⟩)

/-- The steps of a file are among those found exactly if an input with its dot contributes it. -/
theorem steps_mem_iff {file : Path} {place : List String} (hfile : file.IsDescent)
    (hlocate : tree.locate? file = some place) :
    file.steps ∈ found.map Path.steps ↔
      ∃ input ∈ inputs, input.startsHere = file.startsHere ∧ tree.Contributes input place := by
  rw [← exists_mem_iff hproper hdown h, List.mem_map]
  refine exists_congr fun path => and_congr_right fun hpath => ?_
  obtain ⟨hdescent, other, hother, -⟩ := (gathers_of_mem h hpath).exists_contributes hproper hdown
  rw [steps_eq_iff hdescent hfile hother hlocate, hother, Option.some.injEq]

/-- Paths that only go down are located from their steps alone. -/
theorem map_locate?_eq :
    found.map tree.locate?
      = (found.map Path.steps).map fun steps => some (tree.workingFolder ++ steps.filterMap Path.Step.name?) := by
  rw [List.map_map]
  refine List.map_congr_left fun path hpath => ?_
  obtain ⟨hdescent, place, hlocate, -⟩ := (gathers_of_mem h hpath).exists_contributes hproper hdown
  rw [hlocate, locate?_eq_of_isDescent hdescent hlocate]
  rfl

end

/-! ## Loading -/

/-- Two lists of paths lead to the same files in the same order, and the same units are read from them. -/
def LoadsAlike (tree : FileTree) (found found' : List Path) : Prop :=
  found'.map tree.locate? = found.map tree.locate? ∧ tree.readUnits found' = tree.readUnits found

/-- Two paths with the same steps and the same place load the same unit. -/
theorem readUnit_eq {p q : Path} (hsteps : p.steps = q.steps) (hplace : tree.locate? p = tree.locate? q) :
    tree.readUnit p = tree.readUnit q := by
  have htext : tree.readText? p = tree.readText? q := by rw [readText?, readText?, entry, entry, hplace]
  have hext : p.extension? = q.extension? := by
    rw [Path.extension?, Path.extension?, Path.name?, Path.name?, hsteps]
  rw [readUnit, readUnit, htext, hext]

/-- So do two lists of such paths. -/
theorem mapM_readUnit_eq {found found' : List Path} (hsteps : found'.map Path.steps = found.map Path.steps)
    (hplaces : found'.map tree.locate? = found.map tree.locate?) :
    found'.mapM tree.readUnit = found.mapM tree.readUnit := by
  induction found generalizing found' with
  | nil => rw [List.map_eq_nil_iff.mp hsteps]
  | cons p found ih =>
    obtain ⟨q, rest, rfl, hq, hrest⟩ := List.map_eq_cons_iff.mp hsteps
    obtain ⟨hplace, hplaces⟩ := List.cons.inj hplaces
    rw [List.mapM_cons, List.mapM_cons, readUnit_eq hq hplace, ih hrest hplaces]

/-- Inputs whose collections have the same steps load alike. -/
theorem loadsAlike_of_map_steps_eq (hproper : tree.root.IsProper) {inputs inputs' found found' : List Path}
    (hdown : ∀ input ∈ inputs, input.IsDescent) (hdown' : ∀ input ∈ inputs', input.IsDescent)
    (h : tree.declarationPaths inputs = .ok found) (h' : tree.declarationPaths inputs' = .ok found')
    (hsteps : found'.map Path.steps = found.map Path.steps) : tree.LoadsAlike found found' := by
  have hplaces : found'.map tree.locate? = found.map tree.locate? := by
    rw [map_locate?_eq hproper hdown h, map_locate?_eq hproper hdown' h', hsteps]
  exact ⟨hplaces, by rw [readUnits, readUnits, mapM_readUnit_eq hsteps hplaces]⟩

/-- Inputs are a set: their order and how often they are named do not matter. -/
theorem exists_loadsAlike_of_mem_iff (hproper : tree.root.IsProper) {inputs inputs' found : List Path}
    (hdown : ∀ input ∈ inputs, input.IsDescent) (h : tree.declarationPaths inputs = .ok found)
    (hsame : ∀ input, input ∈ inputs' ↔ input ∈ inputs) :
    ∃ found', tree.declarationPaths inputs' = .ok found' ∧ tree.LoadsAlike found found' := by
  have hgathers : ∀ path, tree.Gathers inputs' path ↔ tree.Gathers inputs path := fun path => by
    simp only [Gathers, hsame]
  obtain ⟨hgive, hsome⟩ := exists_declarationPaths_iff.mp ⟨found, h⟩
  obtain ⟨found', h'⟩ := exists_declarationPaths_iff.mpr
    ⟨fun input hinput => hgive input ((hsame input).mp hinput), hsome.imp fun path => (hgathers path).mpr⟩
  refine ⟨found', h', loadsAlike_of_map_steps_eq hproper hdown
    (fun input hinput => hdown input ((hsame input).mp hinput)) h h' (map_steps_eq h h' fun steps => ?_)⟩
  rw [mem_map_steps_iff h', mem_map_steps_iff h]
  simp only [hgathers]

/-! ## Naming a file again -/

/-- A path that goes down to a file has its name. -/
theorem name?_of_locate? {path : Path} (hdown : path.IsDescent) {folder : List String} {name : String}
    (hplace : tree.locate? path = some (folder ++ [name])) (hat : tree.HasFileAt (folder ++ [name])) :
    path.name? = some name := by
  have heq := locate?_eq_of_isDescent hdown hplace
  rcases List.eq_nil_or_concat path.downs with hnil | ⟨outer, last, hlast⟩
  · have hfolder := hasFolder_workingFolder hdown hplace
    rw [hnil, List.append_nil] at heq
    rw [← heq, hat.hasFolder_eq_false] at hfolder
    cases hfolder
  · rw [List.concat_eq_append] at hlast
    rw [hlast, ← List.append_assoc] at heq
    obtain rfl : name = last := by simpa using (List.append_inj_right' heq rfl)
    rw [Path.name?, hdown.steps_eq, hlast, List.map_append, ← List.append_assoc, List.map_singleton,
      List.getLast?_concat]

/-- A file contributes nothing but itself. -/
theorem Contributes.eq_of_hasFileAt {file : Path} {place other : List String}
    (h : tree.Contributes file other) (hplace : tree.locate? file = some place) (hat : tree.HasFileAt place) :
    other = place := by
  obtain ⟨hother, hdirect | ⟨folder, name, hfolder, rfl, -⟩⟩ := h
  · exact Option.some.inj (hdirect.symm.trans hplace)
  · obtain rfl := Option.some.inj (hfolder.symm.trans hplace)
    have hhas := hasFolder_iff.mpr (hother.folder.imp fun _ => And.left)
    rw [hat.hasFolder_eq_false] at hhas
    cases hhas

/-- A file that a folder contributes can be named itself. -/
theorem declarationsAt_of_contributes {folder file : Path} {place : List String}
    (hfolder : tree.isFolder folder = true) (hplace : tree.Contributes folder place) (hdown : file.IsDescent)
    (hlocate : tree.locate? file = some place) : tree.declarationsAt file = .ok [file] := by
  obtain ⟨hat, hdirect | ⟨outer, name, -, rfl, hext, -⟩⟩ := hplace
  · rw [isFolder_eq hdirect, hat.hasFolder_eq_false] at hfolder
    cases hfolder
  · exact declarationsAt_eq_ok_iff.mpr (Or.inr ⟨isFile_iff.mpr ⟨_, hlocate, hat⟩,
      (Path.isDeclaration_iff (name?_of_locate? hdown hlocate hat)).mpr hext, rfl⟩)

/-- A file named beside the inputs is gathered on top of what they gather. -/
theorem gathers_append_singleton_iff {inputs : List Path} {file path : Path}
    (hfile : tree.declarationsAt file = .ok [file]) :
    tree.Gathers (inputs ++ [file]) path ↔ tree.Gathers inputs path ∨ path = file := by
  simp only [Gathers, List.mem_append, List.mem_singleton]
  constructor
  · rintro ⟨input, hinput | rfl, here, hgives, hpath⟩
    · exact Or.inl ⟨input, hinput, here, hgives, hpath⟩
    · rw [hfile] at hgives
      cases hgives
      exact Or.inr (List.mem_singleton.mp hpath)
  · rintro (⟨input, hinput, here, hgives, hpath⟩ | rfl)
    · exact ⟨input, Or.inl hinput, here, hgives, hpath⟩
    · exact ⟨path, Or.inr rfl, [path], hfile, List.mem_singleton_self _⟩

section

variable {inputs found found' : List Path} {file : Path} (h : tree.declarationPaths inputs = .ok found)
  (hself : tree.declarationsAt file = .ok [file])

include h hself

/-- Naming one more file does not stop the collection. -/
theorem exists_declarationPaths_append : ∃ found', tree.declarationPaths (inputs ++ [file]) = .ok found' := by
  obtain ⟨hgive, path, hpath⟩ := exists_declarationPaths_iff.mp ⟨found, h⟩
  refine exists_declarationPaths_iff.mpr
    ⟨fun input hinput => ?_, path, (gathers_append_singleton_iff hself).mpr (Or.inl hpath)⟩
  rcases List.mem_append.mp hinput with hinput | hinput
  · exact hgive input hinput
  · exact ⟨[file], by rw [List.mem_singleton.mp hinput, hself]⟩

variable (h' : tree.declarationPaths (inputs ++ [file]) = .ok found')

include h'

/-- Up to spelling, the collection then holds that file and what it held before. -/
theorem mem_map_steps_append_iff {steps : List Path.Step} :
    steps ∈ found'.map Path.steps ↔ steps ∈ found.map Path.steps ∨ steps = file.steps := by
  rw [mem_map_steps_iff h', mem_map_steps_iff h]
  simp only [gathers_append_singleton_iff hself, or_and_right, exists_or, exists_eq_left]
  exact or_congr_right eq_comm

/-- A file already there adds nothing. -/
theorem map_steps_append_eq (hsteps : file.steps ∈ found.map Path.steps) :
    found'.map Path.steps = found.map Path.steps := by
  refine map_steps_eq h h' fun steps => ?_
  rw [mem_map_steps_append_iff h hself h']
  refine or_iff_left_of_imp ?_
  rintro rfl
  exact hsteps

/-- The list gets longer, unless the steps of the file are found already. -/
theorem steps_mem_of_length_eq (hlength : found'.length = found.length) : file.steps ∈ found.map Path.steps := by
  have hsub : found.map Path.steps ⊆ found'.map Path.steps := fun steps hsteps =>
    (mem_map_steps_append_iff h hself h').mpr (Or.inl hsteps)
  have hperm : (found.map Path.steps).Perm (found'.map Path.steps) :=
    (List.subperm_of_subset (nodup_map_steps h) hsub).perm_of_length_le (by simp [hlength])
  exact hperm.mem_iff.mpr ((mem_map_steps_append_iff h hself h').mpr (Or.inr rfl))

end

/-- Naming a file again that a folder contributes adds no file, and the files are loaded alike exactly if the
file is contributed by an input that has a dot in front as the file has. -/
theorem exists_loadsAlike_iff (hproper : tree.root.IsProper) {inputs found : List Path}
    (hdown : ∀ input ∈ inputs, input.IsDescent) (h : tree.declarationPaths inputs = .ok found) {file : Path}
    {place : List String} (hfile : file.IsDescent) (hlocate : tree.locate? file = some place)
    (hplace : ∃ folder ∈ inputs, tree.isFolder folder = true ∧ tree.Contributes folder place) :
    ∃ found', tree.declarationPaths (inputs ++ [file]) = .ok found' ∧
      (∀ location, location ∈ found'.map tree.locate? ↔ location ∈ found.map tree.locate?) ∧
      (tree.LoadsAlike found found' ↔
        ∃ input ∈ inputs, input.startsHere = file.startsHere ∧ tree.Contributes input place) := by
  obtain ⟨folder, hmem, hfolder, hcontributes⟩ := hplace
  have hself := declarationsAt_of_contributes hfolder hcontributes hfile hlocate
  have hdown' : ∀ input ∈ inputs ++ [file], input.IsDescent :=
    List.forall_mem_append.mpr ⟨hdown, List.forall_mem_singleton.mpr hfile⟩
  obtain ⟨found', h'⟩ := exists_declarationPaths_append h hself
  refine ⟨found', h', fun location => ?_, ?_⟩
  · have hsame : ∀ other, tree.Contributes file other → ∃ input ∈ inputs, tree.Contributes input other := by
      intro other hother
      obtain rfl := hother.eq_of_hasFileAt hlocate hcontributes.1
      exact ⟨folder, hmem, hcontributes⟩
    rw [mem_map_locate?_iff hproper hdown' h', mem_map_locate?_iff hproper hdown h]
    refine exists_congr fun other => and_congr_right fun _ => ?_
    simp only [List.mem_append, List.mem_singleton, or_and_right, exists_or, exists_eq_left]
    exact or_iff_left_of_imp (hsame other)
  · rw [← steps_mem_iff hproper hdown h hfile hlocate]
    constructor
    · rintro ⟨hplaces, -⟩
      exact steps_mem_of_length_eq h hself h' (by simpa using congrArg List.length hplaces)
    · intro hsteps
      exact loadsAlike_of_map_steps_eq hproper hdown hdown' h h' (map_steps_append_eq h hself h' hsteps)

/-! ## Collecting -/

/-- What collecting declaration files finds.  For inputs that only go down from the working folder, the paths
found ascend, and lead to the files that the inputs name and the declaration files in the folders that they
name.  Every file is found once, unless one input with a dot in front and one without contribute it; a path
keeps the dot that its input has, and so two paths to that file differ.  The order of the inputs and how often
each is named do not matter, and a file that is named besides its folder matters only by a dot of its own. -/
theorem declarationPaths_collects {tree : FileTree} (hproper : tree.root.IsProper) {inputs found : List Path}
    (hdown : ∀ input ∈ inputs, input.IsDescent) (h : tree.declarationPaths inputs = .ok found) :
    found.Pairwise (fun p q => p.before q = true) ∧
      (∀ location, location ∈ found.map tree.locate? ↔
        ∃ place, location = some place ∧ ∃ input ∈ inputs, tree.Contributes input place) ∧
      ((found.map tree.locate?).Nodup ↔
        ∀ p ∈ inputs, ∀ q ∈ inputs, ∀ place, tree.Contributes p place → tree.Contributes q place →
          p.startsHere = q.startsHere) ∧
      (∀ inputs', (∀ input, input ∈ inputs' ↔ input ∈ inputs) →
        ∃ found', tree.declarationPaths inputs' = .ok found' ∧ tree.LoadsAlike found found') ∧
      ∀ file place, file.IsDescent → tree.locate? file = some place →
        (∃ folder ∈ inputs, tree.isFolder folder = true ∧ tree.Contributes folder place) →
        ∃ found', tree.declarationPaths (inputs ++ [file]) = .ok found' ∧
          (∀ location, location ∈ found'.map tree.locate? ↔ location ∈ found.map tree.locate?) ∧
          (tree.LoadsAlike found found' ↔
            ∃ input ∈ inputs, input.startsHere = file.startsHere ∧ tree.Contributes input place) :=
  ⟨pairwise_declarationPaths h, fun _ => mem_map_locate?_iff hproper hdown h,
    nodup_map_locate?_iff hproper hdown h, fun _ hsame => exists_loadsAlike_of_mem_iff hproper hdown h hsame,
    fun _ _ hfile hlocate hplace => exists_loadsAlike_iff hproper hdown h hfile hlocate hplace⟩

/-- A declaration file beside a folder with another one and the settings. -/
def besideFolder : FileTree where
  root := .folder [("app.json", .file (some "[]")),
    ("d", .folder [(".cmdspec.yml", .file none), ("c.yml", .file (some "[]"))])]

/-- The names in the example tree are proper and distinct. -/
theorem isProper_besideFolder : besideFolder.root.IsProper := by
  refine .folder (by decide +kernel) ?_
  simp only [List.forall_mem_cons, List.not_mem_nil, false_implies, implies_true, and_true]
  refine ⟨.file _, .folder (by decide +kernel) ?_⟩
  simp only [List.forall_mem_cons, List.not_mem_nil, false_implies, implies_true, and_true]
  exact ⟨.file _, .file _⟩

/-- The working folder with a file in it, and a folder in it with a slash at the end and without. -/
def spellings : List Path :=
  [⟨"."⟩, ⟨"app.json"⟩, ⟨"d/"⟩, ⟨"d"⟩]

/-- The file that is named with a dot and without is found twice.  What is in the folder is found once, also if
the inputs are turned around and if the file in the folder is named too. -/
theorem declarationPaths_collects_spellings :
    besideFolder.root.IsProper ∧ (∀ input ∈ spellings, input.IsDescent) ∧
      besideFolder.declarationPaths spellings = .ok [⟨"./app.json"⟩, ⟨"app.json"⟩, ⟨"d/c.yml"⟩] ∧
      (¬ ∀ p ∈ spellings, ∀ q ∈ spellings, ∀ place, besideFolder.Contributes p place →
        besideFolder.Contributes q place → p.startsHere = q.startsHere) ∧
      (∃ found', besideFolder.declarationPaths spellings.reverse = .ok found' ∧
        besideFolder.LoadsAlike [⟨"./app.json"⟩, ⟨"app.json"⟩, ⟨"d/c.yml"⟩] found') ∧
      ∃ found', besideFolder.declarationPaths (spellings ++ [⟨"d//c.yml"⟩]) = .ok found' ∧
        besideFolder.LoadsAlike [⟨"./app.json"⟩, ⟨"app.json"⟩, ⟨"d/c.yml"⟩] found' := by
  have hdown : ∀ input ∈ spellings, input.IsDescent := by decide +kernel
  have hfound : besideFolder.declarationPaths spellings = .ok [⟨"./app.json"⟩, ⟨"app.json"⟩, ⟨"d/c.yml"⟩] := rfl
  have hfolder : besideFolder.Contributes ⟨"d"⟩ ["d", "c.yml"] :=
    ⟨⟨some "[]", rfl⟩, Or.inr ⟨["d"], "c.yml", by decide +kernel, rfl,
      ⟨"c", "yml", by decide, by decide, by decide⟩, by decide⟩⟩
  obtain ⟨-, -, honce, hmembers, hagain⟩ := declarationPaths_collects isProper_besideFolder hdown hfound
  obtain ⟨found', hfound', -, halike⟩ := hagain ⟨"d//c.yml"⟩ ["d", "c.yml"] (by decide +kernel) (by decide +kernel)
    ⟨⟨"d"⟩, by decide, by decide +kernel, hfolder⟩
  exact ⟨isProper_besideFolder, hdown, hfound, fun hdots => absurd (honce.mpr hdots) (by decide +kernel),
    hmembers _ fun _ => List.mem_reverse, found', hfound',
    halike.mpr ⟨⟨"d"⟩, by decide, by decide +kernel, hfolder⟩⟩

end CommandDoc.FileTree
