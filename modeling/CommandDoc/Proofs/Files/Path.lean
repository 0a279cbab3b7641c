import CommandDoc.Files.Path
import CommandDoc.Proofs.Text.Blank

/-!
# Steps of paths

A path is followed by its pieces and compared by its steps.  For a path that only goes down into folders, the
names among its steps say where it leads; beyond them the steps only tell whether a dot stands in front.

Main definitions:

- `Path.IsEntryName`: a name that something in a folder can have.
- `Path.IsDescent`: a path that starts in the working folder and only goes down, by the names `Path.downs`.
- `Path.startsHere`: such a path has a dot in front.

Main results:

- Theorem `Path.steps_join`: the path to something in a folder goes one step further.
- Theorem `Path.IsDescent.steps_eq`: a path that only goes down is known by its names and the dot in front.
- Theorem `Path.extensionOf?_eq_some_iff`: where the extension of a name starts.
-/

namespace CommandDoc.Path

open Text

/-! ## Pieces -/

/-- A name that something in a folder can have: it makes one step of a path. -/
def IsEntryName (name : String) : Prop :=
  name.toList ∉ [[], ['.'], ['.', '.']] ∧ '/' ∉ name.toList

instance : DecidablePred IsEntryName := fun _ => inferInstanceAs (Decidable (_ ∧ _))

/-- The name of an entry is a step. -/
theorem stepOf?_of_isEntryName {name : String} (h : IsEntryName name) :
    stepOf? name.toList = some (.name name) := by
  have hne := h.1
  simp only [List.mem_cons, List.not_mem_nil, or_false, not_or] at hne
  simp [stepOf?, isFiller, hne]

/-- An empty piece is no step. -/
theorem stepOf?_nil : stepOf? [] = none := rfl

/-- Only names and steps up stand behind the first step. -/
theorem eq_up_or_name_of_stepOf? {piece : List Char} {step : Step} (h : stepOf? piece = some step) :
    step = .up ∨ step = .name (String.ofList piece) := by
  unfold stepOf? at h
  split at h
  · cases h
  · split at h
    · exact Or.inl (Option.some.inj h).symm
    · exact Or.inr (Option.some.inj h).symm

/-- A slash separates the pieces before it from those behind it. -/
theorem pieces_ofList_append_cons (cs ds : List Char) :
    (Path.mk (String.ofList (cs ++ '/' :: ds))).pieces
      = (Path.mk (String.ofList cs)).pieces ++ (Path.mk (String.ofList ds)).pieces := by
  simp only [pieces, fields_eq_splitOnP, String.toList_ofList]
  exact List.splitOnP_append_cons cs ds (by decide)

/-- Text without a slash is one piece. -/
theorem pieces_of_not_mem {cs : List Char} (h : '/' ∉ cs) : (Path.mk (String.ofList cs)).pieces = [cs] := by
  rw [pieces, fields_eq_splitOnP, String.toList_ofList]
  refine List.splitOnP_eq_singleton fun c hc => ?_
  rw [beq_eq_false_iff_ne]
  rintro rfl
  exact h hc

/-- The pieces of a path to something in a folder: a slash at the end of the folder is used up. -/
theorem exists_pieces_join (folder : Path) {name : String} (hname : '/' ∉ name.toList)
    (hne : folder.text ≠ "") :
    ∃ outer, (folder.join name).pieces = outer ++ [name.toList] ∧
      (folder.pieces = outer ∨ folder.pieces = outer ++ [[]]) := by
  have hlast : (Path.mk (String.ofList name.toList)).pieces = [name.toList] := pieces_of_not_mem hname
  obtain ⟨text⟩ := folder
  by_cases hslash : text.toList.getLast? = some '/'
  · obtain ⟨outer, houter⟩ := List.getLast?_eq_some_iff.mp hslash
    refine ⟨(Path.mk (String.ofList outer)).pieces, ?_, Or.inr ?_⟩
    · have htext : text ++ name = String.ofList (outer ++ '/' :: name.toList) := by
        rw [← String.toList_inj, String.toList_append, houter, String.toList_ofList, List.append_assoc]
        rfl
      rw [join, if_pos (by simp [hslash]), htext, pieces_ofList_append_cons, hlast]
    · have htext : text = String.ofList (outer ++ '/' :: []) := by rw [← houter, String.ofList_toList]
      rw [htext, pieces_ofList_append_cons, pieces_of_not_mem List.not_mem_nil]
  · refine ⟨(Path.mk text).pieces, ?_, Or.inl rfl⟩
    have htext : text ++ "/" ++ name = String.ofList (text.toList ++ '/' :: name.toList) := by
      simp [← String.toList_inj]
    have hempty : text.isEmpty = false := by simpa using hne
    rw [join, if_neg (by simp [hempty, hslash]), htext, pieces_ofList_append_cons, hlast, String.ofList_toList]

/-! ## Steps -/

/-- The steps of the first piece of a path that has more than it or more in it. -/
def leadingSteps (first : List Char) : List Step :=
  if first.isEmpty then [.root] else if first == ['.'] then [.here] else (stepOf? first).toList

/-- The first piece gives the leading steps, the others one step each or none. -/
theorem steps_eq_append {path : Path} {first : List Char} {rest : List (List Char)}
    (h : path.pieces = first :: rest) (hne : first ≠ [] ∨ rest ≠ []) :
    path.steps = leadingSteps first ++ rest.filterMap stepOf? := by
  rw [steps, h]
  by_cases hfirst : first = []
  · have hrest : rest ≠ [] := hne.resolve_left fun h => h hfirst
    simp [leadingSteps, hfirst, hrest]
  · simp only [leadingSteps, List.isEmpty_iff, hfirst, if_false]
    split <;> rfl

/-- A path has at least one piece. -/
theorem pieces_ne_nil (path : Path) : path.pieces ≠ [] :=
  fields_ne_nil _ _

/-- A path whose only piece is empty is empty. -/
theorem pieces_eq_singleton_nil {path : Path} (h : path.pieces = [[]]) : path.text = "" := by
  by_contra hne
  obtain ⟨c, cs, htext⟩ := List.exists_cons_of_ne_nil (mt String.toList_eq_nil_iff.mp hne)
  rw [pieces, htext, fields] at h
  split at h
  · exact fields_ne_nil _ _ (List.cons.inj h).2
  · split at h
    · cases (List.cons.inj h).1
    · cases (List.cons.inj h).1

/-- The path to something in a folder goes one step further. -/
theorem steps_join (folder : Path) {name : String} (hname : IsEntryName name) :
    (folder.join name).steps = folder.steps ++ [.name name] := by
  have hstep : [name.toList].filterMap stepOf? = [.name name] := by
    rw [List.filterMap_cons, stepOf?_of_isEntryName hname]
    rfl
  by_cases hne : folder.text = ""
  · obtain ⟨text⟩ := folder
    obtain rfl : text = "" := hne
    have hpieces : (Path.mk name).pieces = [name.toList] := by
      have := pieces_of_not_mem hname.2
      rwa [String.ofList_toList] at this
    have hfirst := hname.1
    simp only [List.mem_cons, List.not_mem_nil, or_false, not_or] at hfirst
    have hjoin : (Path.mk "").join name = ⟨name⟩ := by simp [join]
    rw [hjoin, steps_eq_append hpieces (Or.inl hfirst.1), leadingSteps, if_neg (by simpa using hfirst.1),
      if_neg (by simpa using hfirst.2.1), stepOf?_of_isEntryName hname]
    rfl
  · obtain ⟨outer, hjoin, hfolder⟩ := exists_pieces_join folder hname.2 hne
    cases outer with
    | nil =>
      rcases hfolder with hnil | hfolder
      · exact absurd hnil (pieces_ne_nil folder)
      · exact absurd (pieces_eq_singleton_nil hfolder) hne
    | cons first rest =>
      rw [List.cons_append] at hjoin hfolder
      rw [steps_eq_append hjoin (Or.inr (by simp)), List.filterMap_append, hstep, ← List.append_assoc]
      congr 1
      rcases hfolder with hfolder | hfolder
      · have hsome : first ≠ [] ∨ rest ≠ [] := by
          by_contra hnone
          rw [not_or, not_not, not_not] at hnone
          exact hne (pieces_eq_singleton_nil (by rw [hfolder, hnone.1, hnone.2]))
        rw [steps_eq_append hfolder hsome]
      · rw [steps_eq_append hfolder (Or.inr (by simp)), List.filterMap_append, List.filterMap_cons, stepOf?_nil,
          List.filterMap_nil, List.append_nil]

/-! ## Going down -/

/-- The name of a step down. -/
def Step.name? : Step → Option String
  | .name s => some s
  | _ => none

/-- The names of the steps down. -/
def downs (path : Path) : List String :=
  path.steps.filterMap Step.name?

/-- A path that starts in the working folder and never goes up. -/
def IsDescent (path : Path) : Prop :=
  ∀ step ∈ path.steps, step ≠ .root ∧ step ≠ .up

instance : DecidablePred IsDescent := fun _ => inferInstanceAs (Decidable (∀ step ∈ _, _))

/-- Whether the first step leads to where the path starts. -/
def startsHere (path : Path) : Bool :=
  path.steps.head? == some .here

/-- Joining the name of an entry to a path that only goes down gives another. -/
theorem IsDescent.join {folder : Path} (h : folder.IsDescent) {name : String} (hname : IsEntryName name) :
    (folder.join name).IsDescent := by
  intro step hstep
  rw [steps_join folder hname, List.mem_append, List.mem_singleton] at hstep
  rcases hstep with hstep | rfl
  · exact h step hstep
  · simp

/-- Joining a name keeps the first step. -/
theorem startsHere_join (folder : Path) {name : String} (hname : IsEntryName name) :
    (folder.join name).startsHere = folder.startsHere := by
  rw [startsHere, startsHere, steps_join folder hname]
  cases folder.steps <;> rfl

/-- The name of a joined path is the name joined to it. -/
theorem name?_join (folder : Path) {name : String} (hname : IsEntryName name) :
    (folder.join name).name? = some name := by
  rw [name?, steps_join folder hname, List.getLast?_concat]

/-- The name by which a piece goes down. -/
def nameOf? (piece : List Char) : Option String :=
  (stepOf? piece).bind Step.name?

/-- A piece that is a filler names nothing. -/
theorem nameOf?_eq_none {piece : List Char} (h : isFiller piece = true) : nameOf? piece = none := by
  rw [nameOf?, stepOf?, if_pos h]
  rfl

/-- Every other piece that does not go up is a name. -/
theorem nameOf?_eq_some {piece : List Char} (h : isFiller piece = false) (hup : piece ≠ ['.', '.']) :
    nameOf? piece = some (String.ofList piece) := by
  rw [nameOf?, stepOf?, if_neg (by simp [h]), if_neg (by simpa using hup)]
  rfl

/-- The leading steps name what the first piece names. -/
theorem filterMap_name?_leadingSteps (first : List Char) :
    (leadingSteps first).filterMap Step.name? = (nameOf? first).toList := by
  unfold leadingSteps
  split
  · next h =>
    rw [List.isEmpty_iff.mp h]
    rfl
  · split
    · next h =>
      rw [beq_iff_eq.mp h]
      rfl
    · unfold nameOf?
      cases stepOf? first with
      | none => rfl
      | some step => cases step <;> rfl

/-- Each piece of a path gives at most one of its names. -/
theorem downs_eq (path : Path) : path.downs = path.pieces.filterMap nameOf? := by
  obtain ⟨first, rest, hpieces⟩ := List.exists_cons_of_ne_nil (pieces_ne_nil path)
  by_cases hne : first ≠ [] ∨ rest ≠ []
  · rw [downs, steps_eq_append hpieces hne, hpieces, List.filterMap_append, List.filterMap_filterMap,
      filterMap_name?_leadingSteps, List.filterMap_cons]
    cases nameOf? first <;> rfl
  · rw [not_or, not_not, not_not] at hne
    rw [downs, steps, hpieces, hne.1, hne.2]
    rfl

/-- A path that only goes down has no piece that goes up. -/
theorem IsDescent.not_mem_pieces {path : Path} (h : path.IsDescent) : ['.', '.'] ∉ path.pieces := by
  intro hmem
  obtain ⟨first, rest, hpieces⟩ := List.exists_cons_of_ne_nil (pieces_ne_nil path)
  have hup : stepOf? ['.', '.'] = some .up := rfl
  refine (h .up ?_).2 rfl
  rw [hpieces, List.mem_cons] at hmem
  rcases hmem with rfl | hmem
  · rw [steps_eq_append hpieces (Or.inl (by simp))]
    exact List.mem_append_left _ List.mem_cons_self
  · rw [steps_eq_append hpieces (Or.inr (List.ne_nil_of_mem hmem))]
    exact List.mem_append_right _ (List.mem_filterMap.mpr ⟨_, hmem, hup⟩)

/-- A path that only goes down does not start at the root. -/
theorem IsDescent.head?_ne {path : Path} (h : path.IsDescent) : path.text.toList.head? ≠ some '/' := by
  intro hhead
  obtain ⟨cs, htext⟩ := List.head?_eq_some_iff.mp hhead
  have hpieces : path.pieces = [] :: (Path.mk (String.ofList cs)).pieces := by
    rw [pieces, pieces, htext, String.toList_ofList]
    rfl
  refine (h .root ?_).1 rfl
  rw [steps_eq_append hpieces (Or.inr (pieces_ne_nil _))]
  exact List.mem_append_left _ List.mem_cons_self

/-- The dot in front is the only one that makes a step. -/
theorem not_here_of_mem_tail {path : Path} {step : Step} (h : step ∈ path.steps.tail) : step ≠ .here := by
  obtain ⟨first, rest, hpieces⟩ := List.exists_cons_of_ne_nil (pieces_ne_nil path)
  by_cases hne : first ≠ [] ∨ rest ≠ []
  · have hrest : step ∈ rest.filterMap stepOf? := by
      rw [steps_eq_append hpieces hne] at h
      have hshort : (leadingSteps first).length ≤ 1 := by
        unfold leadingSteps
        split
        · simp
        · split
          · simp
          · cases stepOf? first <;> simp
      cases hlead : leadingSteps first with
      | nil =>
        rw [hlead] at h
        exact List.mem_of_mem_tail h
      | cons lead more =>
        rw [hlead, List.length_cons] at hshort
        have hnil : more = [] := List.length_eq_zero_iff.mp (by omega)
        rw [hlead, hnil] at h
        exact h
    obtain ⟨piece, -, hpiece⟩ := List.mem_filterMap.mp hrest
    rcases eq_up_or_name_of_stepOf? hpiece with rfl | rfl <;> simp
  · rw [not_or, not_not, not_not] at hne
    rw [steps, hpieces, hne.1, hne.2] at h
    cases h

/-- A path that only goes down is known by its names and the dot in front. -/
theorem IsDescent.steps_eq {path : Path} (h : path.IsDescent) :
    path.steps = (if path.startsHere then [.here] else []) ++ path.downs.map .name := by
  have hnames : ∀ steps : List Step, (∀ step ∈ steps, (step ≠ .root ∧ step ≠ .up) ∧ step ≠ .here) →
      steps = (steps.filterMap Step.name?).map .name := by
    intro steps hsteps
    induction steps with
    | nil => rfl
    | cons step steps ih =>
      obtain ⟨⟨hroot, hup⟩, hhere⟩ := hsteps step List.mem_cons_self
      have hrest := ih fun s hs => hsteps s (List.mem_cons_of_mem _ hs)
      cases step with
      | root => exact absurd rfl hroot
      | here => exact absurd rfl hhere
      | up => exact absurd rfl hup
      | name s =>
        have hstep : Step.name? (.name s) = some s := rfl
        rw [List.filterMap_cons_some hstep, List.map_cons, ← hrest]
  have htail : ∀ step ∈ path.steps.tail, (step ≠ .root ∧ step ≠ .up) ∧ step ≠ .here := fun step hstep =>
    ⟨h step (List.mem_of_mem_tail hstep), not_here_of_mem_tail hstep⟩
  cases hsteps : path.steps with
  | nil => simp [startsHere, downs, hsteps]
  | cons step steps =>
    rw [hsteps, List.tail_cons] at htail
    by_cases hhere : step = .here
    · rw [downs, startsHere, hsteps, hhere, List.filterMap_cons_none rfl, ← hnames steps htail]
      rfl
    · have hall : ∀ s ∈ step :: steps, (s ≠ .root ∧ s ≠ .up) ∧ s ≠ .here := by
        intro s hs
        rcases List.mem_cons.mp hs with rfl | hs
        · exact ⟨h s (by rw [hsteps]; exact List.mem_cons_self), hhere⟩
        · exact htail s hs
      have hfalse : path.startsHere = false := by simp [startsHere, hsteps, hhere]
      rw [hfalse, downs, hsteps, ← hnames _ hall]
      rfl

/-! ## Extensions -/

/-- The extension of a name starts behind its last dot, in front of which there is something. -/
theorem extensionOf?_eq_some_iff {name extension : List Char} :
    extensionOf? name = some extension ↔
      ∃ base, base ≠ [] ∧ '.' ∉ extension ∧ name = base ++ '.' :: extension := by
  constructor
  · intro h
    have hlong : (name.reverse.takeWhile (· != '.')).length + 1 < name.length := by
      by_contra hshort
      rw [extensionOf?, if_neg hshort] at h
      cases h
    rw [extensionOf?, if_pos hlong] at h
    obtain rfl := Option.some.inj h
    have hparts : name.reverse.takeWhile (· != '.') ++ name.reverse.dropWhile (· != '.') = name.reverse :=
      List.takeWhile_append_dropWhile
    cases hrest : name.reverse.dropWhile (· != '.') with
    | nil =>
      have hlength := congrArg List.length hparts
      rw [hrest, List.append_nil, List.length_reverse] at hlength
      omega
    | cons dot front =>
      have hdot : dot = '.' := by
        have hhead := List.head?_dropWhile_not (· != '.') name.reverse
        rw [hrest] at hhead
        simpa using hhead
      rw [hrest, hdot] at hparts
      refine ⟨front.reverse, ?_, ?_, ?_⟩
      · intro hnil
        have hlength := congrArg List.length hparts
        rw [List.reverse_eq_nil_iff.mp hnil, List.length_append, List.length_reverse] at hlength
        simp only [List.length_cons, List.length_nil] at hlength
        omega
      · intro hmem
        simpa using List.mem_takeWhile_imp (List.mem_reverse.mp hmem)
      · have hback := congrArg List.reverse hparts
        rw [List.reverse_append, List.reverse_cons, List.append_assoc, List.reverse_reverse] at hback
        exact hback.symm
  · rintro ⟨base, hbase, hdot, rfl⟩
    have htail : (base ++ '.' :: extension).reverse.takeWhile (· != '.') = extension.reverse := by
      rw [List.reverse_append, List.reverse_cons, List.append_assoc, List.takeWhile_append_of_pos]
      · simp
      · intro c hc
        rw [bne_iff_ne]
        rintro rfl
        exact hdot (List.mem_reverse.mp hc)
    have hpos := List.length_pos_iff.mpr hbase
    rw [extensionOf?, htail, if_pos (by simp; omega), List.reverse_reverse]

end CommandDoc.Path
