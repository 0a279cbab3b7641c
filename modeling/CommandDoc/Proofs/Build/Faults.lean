import CommandDoc.Proofs.Build.WellFormed

/-!
# Faults of models from units

Before a model is checked, most of what is checked holds already: names of commands are words and differ,
numbers point to nodes, positions are not zero, and what is repeated is an argument.  The faults that remain
are repetitions: of a position, of a flag, or of a word that names siblings.

Main definitions:

- `Fault.IsRepetition`: the faults that remain.

Main results:

- Theorem `SourceUnit.extract_ne_invalid`: faults are not found before the end of a build.
- Theorem `Command.LaidOut.isDangling_eq_false`: the numbers of a flattened command point to nodes.
- Theorem `isRepetition_of_build`: the faults that a build can end with.
-/

namespace CommandDoc

/-! ## Errors before the check -/

theorem assignPositions_ne_invalid {function : String} {parameters : List Parameter} (faults : List Fault) :
    assignPositions function parameters ≠ .error (.invalid faults) := by
  intro h
  obtain ⟨p, -, heq⟩ := error_of_assignPositionsAfter h
  cases heq

theorem SourceParam.typed_ne_invalid {function : String} {p : SourceParam} (faults : List Fault) :
    p.typed function ≠ .error (.invalid faults) := by
  unfold typed
  split
  · simp
  · simp

namespace SourceUnit

theorem extractFunction_ne_invalid {source : SourceUnit} {f : SourceFunction} (faults : List Fault) :
    source.extractFunction f ≠ .error (.invalid faults) := by
  intro h
  unfold extractFunction at h
  cases hread : readComment f.name f.doc with | mk directive style => ?_
  rw [hread] at h
  dsimp only at h
  split at h
  · cases h
  · split at h
    · cases h
    · unfold extractCommand at h
      split at h
      · cases h
      · rcases bind_eq_error_iff.mp h with htyped | ⟨signature, -, hrest⟩
        · rcases exists_of_mapM_eq_error htyped with ⟨p, -, hp⟩
          exact p.typed_ne_invalid faults hp
        · rcases bind_eq_error_iff.mp hrest with hnumbered | ⟨parameters, -, heq⟩
          · exact assignPositions_ne_invalid faults hnumbered
          · cases heq

/-- Reading a unit finds no faults. -/
theorem extract_ne_invalid {source : SourceUnit} (faults : List Fault) :
    source.extract ≠ .error (.invalid faults) := by
  intro h
  rw [extract] at h
  rcases bind_eq_error_iff.mp h with hparts | ⟨parts, -, heq⟩
  · rcases exists_of_mapM_eq_error hparts with ⟨f, -, hf⟩
    exact extractFunction_ne_invalid faults hf
  · cases heq

end SourceUnit

theorem CommandTree.insertAll_ne_invalid (tree : CommandTree) (ds : List Declaration) (faults : List Fault) :
    (tree.insertAll ds).2 ≠ some (.invalid faults) := by
  induction ds generalizing tree with
  | nil => simp [insertAll]
  | cons d ds ih =>
    rw [insertAll]
    cases hinsert : tree.insert d with
    | mk next error =>
      cases error with
      | none => exact ih next
      | some error =>
        unfold insert at hinsert
        dsimp only at hinsert
        split at hinsert
        · cases hinsert
          simp [duplicate]
        · cases hinsert

/-- Adding units finds no faults. -/
theorem Assembly.addUnits_ne_invalid (assembly : Assembly) (units : List SourceUnit) (faults : List Fault) :
    (assembly.addUnits units).2 ≠ some (.invalid faults) := by
  rw [addUnits]
  induction units generalizing assembly with
  | nil => simp [absorbAll]
  | cons source units ih =>
    rw [List.map_cons]
    cases hextract : source.extract with
    | error e =>
      rw [absorbAll]
      rintro ⟨rfl⟩
      exact SourceUnit.extract_ne_invalid faults hextract
    | ok extraction =>
      rw [absorbAll]
      cases habsorb : assembly.absorb extraction with
      | mk next error =>
        cases error with
        | none => exact ih next
        | some error =>
          rintro ⟨rfl⟩
          apply CommandTree.insertAll_ne_invalid assembly.tree extraction.declarations faults
          exact congrArg Prod.snd habsorb

/-- Flattening finds no faults. -/
theorem CommandTree.flatten_ne_invalid (ds : List Declaration) (reserved : List String)
    (faults : List Fault) :
    (({} : CommandTree).insertEach ds).flatten reserved ≠ .error (.invalid faults) := by
  intro h
  rcases exists_of_flatten_eq_error h with ⟨entry, hentry, hflatten⟩
  rcases Branch.hasOrphan_of_flatten (isPathRow_of_mem hentry) hflatten with ⟨⟨_, _, herror⟩, -⟩
  cases herror

/-- A build that is ended with faults ends in the flattening or with a model that has these faults. -/
theorem Assembly.finish_eq_invalid {assembly : Assembly} {faults : List Fault}
    (h : assembly.finish = .error (.invalid faults)) :
    assembly.tree.flatten assembly.settings.reservedNames = .error (.invalid faults) ∨
      faults ≠ [] ∧ ∃ model, assembly.tree.flatten assembly.settings.reservedNames = .ok model ∧
        model.faults = faults := by
  rw [finish_eq] at h
  rcases bind_eq_error_iff.mp h with hchecked | ⟨outcome, -, hwarnings⟩
  · rcases bind_eq_error_iff.mp (map_eq_error_iff.mp hchecked) with hflatten | ⟨model, hmodel, hfaults⟩
    · exact Or.inl hflatten
    · rw [Model.checked] at hfaults
      split at hfaults
      · cases hfaults
      · next hnone =>
        cases hfaults
        exact Or.inr ⟨by simpa using hnone, model, hmodel, rfl⟩
  · split at hwarnings
    · rw [Outcome.withoutWarnings] at hwarnings
      split at hwarnings
      · cases hwarnings
      · cases hwarnings
    · cases hwarnings

theorem finish_of_build_eq_invalid {units : List SourceUnit} {settings : Settings} {faults : List Fault}
    (h : build units settings = .error (.invalid faults)) :
    (Assembly.ofUnits units settings).finish = .error (.invalid faults) := by
  unfold build at h
  cases hunits : Assembly.addUnits { settings := settings } units with
  | mk next error =>
    rw [hunits] at h
    cases error with
    | some error =>
      cases h
      exact absurd (congrArg Prod.snd hunits) (Assembly.addUnits_ne_invalid _ _ faults)
    | none =>
      rcases Assembly.addUnits_start_eq_none_iff.mp hunits with ⟨-, -, rfl⟩
      exact h

/-- A build that fails with faults has flattened all that was declared into a model with these faults. -/
theorem build_eq_invalid {units : List SourceUnit} {settings : Settings} {faults : List Fault}
    (h : build units settings = .error (.invalid faults)) :
    faults ≠ [] ∧ ∃ model,
      (CommandTree.ofDeclarations ((functionUnits units).flatMap (·.yield.declarations))).flatten
          settings.reservedNames = .ok model ∧ model.faults = faults := by
  rcases Assembly.finish_eq_invalid (finish_of_build_eq_invalid h) with hflatten | hfound
  · rw [Assembly.ofUnits, ← CommandTree.insertEach_empty] at hflatten
    exact absurd hflatten (CommandTree.flatten_ne_invalid _ _ faults)
  · exact hfound

/-! ## Numbers -/

/-- The numbers of a command that is laid out along paths point to nodes. -/
theorem Command.LaidOut.isDangling_eq_false {command : Command} {paths : List (List String)}
    (laid : command.LaidOut paths) (row : IsPathRow paths) : command.isDangling = false := by
  have hids : ∀ path, ∀ id ∈ childIds paths path, (command.node? id).isNone = false := by
    intro path id hid
    rw [laid.childIds_eq] at hid
    rcases List.mem_map.mp hid with ⟨child, hchild, rfl⟩
    simp [laid.node?_id (List.mem_of_mem_filter hchild)]
  rw [isDangling, List.any_eq_false]
  intro id hid
  rw [Bool.not_eq_true]
  rcases List.mem_append.mp hid with hid | hid
  · rcases List.mem_append.mp hid with hid | hid
    · rw [laid.roots_eq] at hid
      exact hids [] id hid
    · rcases List.mem_flatMap.mp hid with ⟨node, hnode, hid⟩
      rw [(laid.fits node hnode).children_eq] at hid
      exact hids node.path id hid
  · rcases List.mem_filterMap.mp hid with ⟨node, hnode, hid⟩
    by_cases hone : node.path.length = 1
    · rw [(laid.parent_eq_none_iff row hnode).mpr hone] at hid
      cases hid
    · rcases laid.exists_parent row hnode hone with ⟨above, habove, hparent, -⟩
      rw [hparent, Option.some.injEq] at hid
      simp [← hid, laid.node?_id habove]

/-! ## Repetitions -/

/-- A fault that consists in something being there twice: a position, a flag, or a word that names
siblings. -/
def Fault.IsRepetition : Fault → Prop
  | duplicatePosition _ _ => True
  | duplicateFlag _ _ => True
  | aliasCollision _ _ => True
  | emptyCommandName => False
  | duplicateCommand _ => False
  | danglingNode _ => False
  | zeroPosition _ _ => False
  | varargNotPositional _ _ => False

theorem isRepetition_of_mem_siblingFaults {path : String} {siblings : List Node} :
    ∀ fault ∈ siblingFaults path siblings, fault.IsRepetition := by
  simp [siblingFaults, Fault.IsRepetition]

/-- The faults of well formed parameters are repetitions. -/
theorem isRepetition_of_mem_parameterFaults {path : String} {parameters : List Parameter}
    (h : ∀ p ∈ parameters, p.IsWellFormed) :
    ∀ fault ∈ parameterFaults path parameters, fault.IsRepetition := by
  intro fault hfault
  rw [parameterFaults, positionFaults_of_isWellFormed h, List.mem_append] at hfault
  rcases hfault with hfault | hfault
  · rcases List.mem_map.mp hfault with ⟨_, -, rfl⟩
    trivial
  · rcases List.mem_map.mp hfault with ⟨_, -, rfl⟩
    trivial

theorem isRepetition_of_mem_nodeFaults {command : Command} {node : Node}
    (h : ∀ p ∈ node.parameters, p.IsWellFormed) : ∀ fault ∈ command.nodeFaults node, fault.IsRepetition := by
  intro fault hfault
  rcases List.mem_append.mp hfault with hfault | hfault
  · rcases List.mem_append.mp hfault with hfault | hfault
    · exact isRepetition_of_mem_parameterFaults h fault hfault
    · rcases List.mem_map.mp hfault with ⟨_, -, rfl⟩
      trivial
  · exact isRepetition_of_mem_siblingFaults fault hfault

/-- The faults of a flattened command are repetitions. -/
theorem isRepetition_of_mem_faults {ds : List Declaration} (hds : ∀ d ∈ ds, d.IsWellFormed)
    {reserved : List String} {model : Model}
    (h : (({} : CommandTree).insertEach ds).flatten reserved = .ok model) {command : Command}
    (hcommand : command ∈ model.commands) : ∀ fault ∈ command.faults, fault.IsRepetition := by
  rcases CommandTree.flatten_branch_name h hcommand with ⟨row, hbranch⟩
  have hcompleted := Branch.isCompleted_of_flatten row hbranch
  have hformed := Branch.isWellFormed_insertEach hds command.name
  have hname := (isWord_of_flatten hds h hcommand).1.isBlankText_eq_false
  rw [Command.faults_eq hname ((Branch.laidOut_of_flatten hbranch).isDangling_eq_false row)]
  intro fault hfault
  rcases List.mem_append.mp hfault with hfault | hfault
  · rcases List.mem_append.mp hfault with hfault | hfault
    · have hparameters := hformed.isWellFormed_of_completes hcompleted.root
      exact isRepetition_of_mem_parameterFaults hparameters fault hfault
    · exact isRepetition_of_mem_siblingFaults fault hfault
  · rcases List.mem_flatMap.mp hfault with ⟨node, hnode, hfault⟩
    have hparameters := hformed.isWellFormed_of_completes (hcompleted.nodes node hnode)
    exact isRepetition_of_mem_nodeFaults hparameters fault hfault

/-- A build that fails with faults has some, and each is a repetition. -/
theorem isRepetition_of_build {units : List SourceUnit} {settings : Settings} {faults : List Fault}
    (h : build units settings = .error (.invalid faults)) :
    faults ≠ [] ∧ ∀ fault ∈ faults, fault.IsRepetition := by
  rcases build_eq_invalid h with ⟨hne, model, hflatten, rfl⟩
  rw [← CommandTree.insertEach_empty] at hflatten
  refine ⟨hne, ?_⟩
  intro fault hfault
  rw [Model.faults, commandFaults_eq_flatMap (nodup_commandNames_of_flatten hflatten) (by simp)] at hfault
  rcases List.mem_flatMap.mp hfault with ⟨command, hcommand, hfault⟩
  exact isRepetition_of_mem_faults (fun _ => isWellFormed_of_mem_yield units) hflatten hcommand fault hfault

/-- A unit with each of the repetitions: two arguments at one place, two flags of one name, and two
subcommands that answer to one word. -/
def repetitiousUnit : SourceUnit where
  package := "example.com/app"
  file := "main.go"
  functions :=
    [{ name := "App"
       doc := "App is a subcommand \x60app\x60 that runs\nFlags:\n\n\ta: @1\n\tb: @1\n\tc: -x\n\td: -x"
       parameters := [{ name := "a", typeText := "string" }, { name := "b", typeText := "string" },
         { name := "c", typeText := "bool" }, { name := "d", typeText := "bool" }] },
      { name := "Push", doc := "Push is a subcommand \x60app push\x60 that pushes" },
      { name := "Put", doc := "Put is a subcommand \x60app put\x60 that puts\nAliases: push" }]

/-- All three repetitions are found. -/
theorem isRepetition_of_build_repetitious :
    ∃ faults, build [repetitiousUnit] {} = .error (.invalid faults) ∧
      faults = [.duplicatePosition "app" 1, .duplicateFlag "app" "x", .aliasCollision "app" "push"] ∧
        faults ≠ [] ∧ ∀ fault ∈ faults, fault.IsRepetition := by
  have hfails : build [repetitiousUnit] {} = .error (.invalid
      [.duplicatePosition "app" 1, .duplicateFlag "app" "x", .aliasCollision "app" "push"]) := by
    decide +kernel
  exact ⟨_, hfails, rfl, isRepetition_of_build hfails⟩

end CommandDoc
