import CommandDoc.Proofs.Build.Assembly
import CommandDoc.Proofs.Comment.Declaration
import CommandDoc.Proofs.Model.Parameter
import CommandDoc.Proofs.Model.Validation
import CommandDoc.Proofs.Tree.Acceptance

/-!
# Well formed models

What a unit declares is well formed: its place is given by words, and its parameters follow the signature and
fit together.  Flattening keeps this, as a parameter that defers takes over everything from one that is well
formed but its name and type.  The checks at the end of a build add that no position is taken twice.

Main definitions:

- `Declaration.IsWellFormed`: what holds of everything that units declare.
- `IsScope` and `Model.IsWellFormed`: what holds of a built model.

Main results:

- Theorem `isWellFormed_of_mem_yield`: whatever units declare is well formed.
- Theorem `Branch.IsWellFormed.isWellFormed_of_completes`: completing parameters keeps them well formed.
- Theorem `nodup_labels_of_flatten`: no label is there twice.
- Theorem `isScope_of_build`: the parameters of each command and node of a built model fit together.
- Theorem `isWellFormed_of_build`: every built model is well formed.
-/

namespace CommandDoc

open Text

/-! ## Labels -/

/-- A label of words determines them. -/
theorem pathLabel_inj {command other : String} {path otherPath : List String}
    (h : ∀ word ∈ command :: path, IsWord word) (hother : ∀ word ∈ other :: otherPath, IsWord word) :
    pathLabel command path = pathLabel other otherPath ↔ command = other ∧ path = otherPath := by
  have hread : ∀ ws : List String, (∀ word ∈ ws, IsWord word) →
      words (" ".intercalate ws).toList = ws.map String.toList := by
    intro ws hws
    rw [String.toList_intercalate]
    apply words_unwords
    rw [List.forall_mem_map]
    intro word hword
    exact ⟨fun hnil => (hws word hword).1 (String.toList_eq_nil_iff.mp hnil), (hws word hword).2⟩
  constructor
  · intro heq
    have hlists : (command :: path).map String.toList = (other :: otherPath).map String.toList := by
      rw [← hread _ h, ← hread _ hother]
      exact congrArg (fun label => words label.toList) heq
    have hwords := List.map_injective_iff.mpr (fun _ _ => String.toList_inj.mp) hlists
    exact List.cons.inj hwords
  · rintro ⟨rfl, rfl⟩
    rfl

/-! ## Declarations -/

/-- What holds of everything that units declare. -/
structure Declaration.IsWellFormed (d : Declaration) : Prop where
  /-- Its place is given by words. -/
  isWord : ∀ word ∈ d.command :: d.path, IsWord word
  /-- It has one parameter for each of the signature. -/
  followsSignature : d.FollowsSignature
  /-- The fields of each parameter fit together. -/
  parameters : ∀ p ∈ d.parameters, p.IsWellFormed

/-- Whatever units declare is well formed. -/
theorem isWellFormed_of_mem_yield (units : List SourceUnit) {d : Declaration}
    (hd : d ∈ (functionUnits units).flatMap (·.yield.declarations)) : d.IsWellFormed := by
  rcases exists_extract_of_mem_yield hd with ⟨source, -, extraction, hextract, hd⟩
  rcases SourceUnit.exists_extractCommand_of_mem hextract hd with ⟨f, -, hnamed, style, part, hpart, hmem⟩
  rcases SourceUnit.extractCommand_eq_ok hpart hmem with ⟨hcommand, hpath, -, hparameters⟩
  refine ⟨?_, SourceUnit.followsSignature_of_mem_declarations hextract hd, ?_⟩
  · rcases isWord_readComment f.name f.doc with ⟨hname, hsequence⟩
    rw [hcommand, hpath, List.forall_mem_cons]
    exact ⟨hname hnamed, hsequence⟩
  · refine isWellFormed_of_assignPositions (isPrepared_of_mem_finishParameters ?_ _) hparameters
    exact Directive.isCoherent_of_mem_params

/-! ## Branches -/

namespace Branch

variable {branch : Branch} {name : String}

/-- All declarations of a branch are well formed. -/
def IsWellFormed (branch : Branch) : Prop :=
  ∀ path d, branch.declared? path = some d → d.IsWellFormed

theorem IsWellFormed.isWellFormed_of_mem (h : branch.IsWellFormed) {path : List String} {p : Parameter}
    (hp : p ∈ branch.parametersAt path) : p.IsWellFormed := by
  rw [parametersAt] at hp
  cases hdeclared : branch.declared? path with
  | none => simp [hdeclared] at hp
  | some d => exact (h path d hdeclared).parameters p (by simpa [hdeclared] using hp)

/-- Completing parameters keeps them well formed: one that defers takes over a well formed one. -/
theorem IsWellFormed.isWellFormed_of_completes (h : branch.IsWellFormed) {path : List String}
    {final : List Parameter}
    (hfinal : List.Forall₂ (branch.Completes name path) (branch.parametersAt path) final) :
    ∀ p ∈ final, p.IsWellFormed := by
  intro p hp
  rcases exists_of_mem_right hfinal hp with ⟨declared, hdeclared, hcompletes⟩
  cases hcompletes with
  | own _ =>
    have hown := h.isWellFormed_of_mem hdeclared
    exact ⟨hown.positional_iff, hown.one_le_position, hown.positional_of_vararg, hown.bounds, hown.flags⟩
  | deferred _ hprovides =>
    have habove := h.isWellFormed_of_mem (List.mem_of_find?_eq_some hprovides.first)
    exact ⟨habove.positional_iff, habove.one_le_position, habove.positional_of_vararg, habove.bounds,
      habove.flags⟩

/-- The names and types of the parameters that are declared at a path are those of the signature. -/
theorem IsWellFormed.map_signature_parametersAt (h : branch.IsWellFormed) (path : List String) :
    (branch.parametersAt path).map Parameter.signature
      = ((((branch.declared? path).map (·.binding)).map (·.parameters)).getD []).map
          fun typed => (typed.name, typed.type) := by
  rw [parametersAt]
  cases hdeclared : branch.declared? path with
  | none => rfl
  | some d =>
    have hfollows := (h path d hdeclared).followsSignature
    exact map_eq_of_forall₂ (fun _ _ hp => Prod.ext hp.name_eq hp.type_eq) hfollows

end Branch

/-! ## Flattened trees -/

section Flattened

variable {ds : List Declaration} {reserved : List String} {model : Model}

theorem Branch.isWellFormed_insertEach (hds : ∀ d ∈ ds, d.IsWellFormed) (name : String) :
    ((({} : CommandTree).insertEach ds).branch name).IsWellFormed :=
  fun _ d hd => hds d (Branch.mem_of_declared?_insertEach hd)

/-- The name of a command and the paths of its nodes consist of words. -/
theorem isWord_of_flatten (hds : ∀ d ∈ ds, d.IsWellFormed)
    (h : (({} : CommandTree).insertEach ds).flatten reserved = .ok model) {command : Command}
    (hcommand : command ∈ model.commands) :
    IsWord command.name ∧ ∀ node ∈ command.nodes, ∀ word ∈ node.path, IsWord word := by
  constructor
  · have hnames := CommandTree.map_name_of_flatten h
    rw [CommandTree.insertEach_empty, CommandTree.map_fst_commands_ofDeclarations] at hnames
    have hname : command.name ∈ model.commands.map (·.name) := List.mem_map.mpr ⟨command, hcommand, rfl⟩
    rw [hnames, Ordered.sortStrings, Ordered.mem_sortDistinct Ordered.stringBefore_strictOrder] at hname
    rcases List.mem_map.mp hname with ⟨d, hd, heq⟩
    rw [← heq]
    exact (hds d hd).isWord _ List.mem_cons_self
  · intro node hnode word hword
    have laid := Branch.laidOut_of_flatten (CommandTree.flatten_branch_name h hcommand).2
    rcases Branch.exists_of_mem_paths_insertEach (laid.path_mem hnode) with ⟨d, hd, hstart⟩
    exact (hds d hd).isWord word (List.mem_cons_of_mem _ (hstart.subset hword))

theorem nodup_commandNames_of_flatten
    (h : (({} : CommandTree).insertEach ds).flatten reserved = .ok model) : model.commandNames.Nodup := by
  have hnames := CommandTree.map_name_of_flatten h
  rw [CommandTree.insertEach_empty, CommandTree.map_fst_commands_ofDeclarations] at hnames
  rw [Model.commandNames, hnames]
  exact Ordered.nodup_of_pairwise Ordered.stringBefore_strictOrder
    (Ordered.pairwise_sortDistinct Ordered.stringBefore_strictOrder _)

/-- The labels of commands and nodes. -/
def Model.labels (model : Model) : List String :=
  model.commands.flatMap fun command => command.name :: command.nodes.map Node.label

/-- The places of a command and of its nodes. -/
def Command.places (command : Command) : List (String × List String) :=
  (command.name, []) :: command.nodes.map fun node => (command.name, node.path)

/-- A flattened tree has no place twice. -/
theorem nodup_places_of_flatten (h : (({} : CommandTree).insertEach ds).flatten reserved = .ok model) :
    (model.commands.flatMap Command.places).Nodup := by
  rw [List.nodup_flatMap]
  constructor
  · intro command hcommand
    rcases CommandTree.flatten_branch_name h hcommand with ⟨row, hbranch⟩
    have laid := Branch.laidOut_of_flatten hbranch
    rw [Command.places, List.nodup_cons, List.mem_map]
    constructor
    · rintro ⟨node, hnode, heq⟩
      exact row.ne_nil _ (laid.path_mem hnode) (congrArg Prod.snd heq)
    · have hpaths := row.nodup
      rw [← laid.paths_eq] at hpaths
      have hpairs := hpaths.map (f := fun path => (command.name, path)) fun _ _ heq => congrArg Prod.snd heq
      rwa [List.map_map] at hpairs
  · have hnames : (model.commands.map (·.name)).Nodup := nodup_commandNames_of_flatten h
    rw [List.Nodup, List.pairwise_map] at hnames
    refine hnames.imp ?_
    intro command other hne place hplace hother
    have hname : ∀ owner : Command, place ∈ owner.places → place.1 = owner.name := by
      intro owner howner
      rcases List.mem_cons.mp howner with rfl | howner
      · rfl
      · rcases List.mem_map.mp howner with ⟨node, -, rfl⟩
        rfl
    exact hne ((hname command hplace).symm.trans (hname other hother))

/-- No label is there twice in a flattened tree of words. -/
theorem nodup_labels_of_flatten (hds : ∀ d ∈ ds, d.IsWellFormed)
    (h : (({} : CommandTree).insertEach ds).flatten reserved = .ok model) : model.labels.Nodup := by
  have hlabels : model.labels
      = (model.commands.flatMap Command.places).map fun place => pathLabel place.1 place.2 := by
    rw [Model.labels, List.map_flatMap]
    apply List.flatMap_congr
    intro command hcommand
    have laid := Branch.laidOut_of_flatten (CommandTree.flatten_branch_name h hcommand).2
    have hroot : pathLabel command.name [] = command.name := String.intercalate_singleton
    rw [Command.places, List.map_cons, List.map_map, hroot]
    congr 1
    apply List.map_congr_left
    intro node hnode
    rw [Node.label, (laid.fits node hnode).command_eq]
    rfl
  have hwords : ∀ place ∈ model.commands.flatMap Command.places,
      ∀ word ∈ place.1 :: place.2, IsWord word := by
    intro place hplace
    rcases List.mem_flatMap.mp hplace with ⟨command, hcommand, hplace⟩
    rcases isWord_of_flatten hds h hcommand with ⟨hname, hpaths⟩
    rcases List.mem_cons.mp hplace with rfl | hplace
    · simpa using hname
    · rcases List.mem_map.mp hplace with ⟨node, hnode, rfl⟩
      rw [List.forall_mem_cons]
      exact ⟨hname, hpaths node hnode⟩
  rw [hlabels]
  refine (nodup_places_of_flatten h).map_on ?_
  intro place hplace other hother heq
  rcases (pathLabel_inj (hwords place hplace) (hwords other hother)).mp heq with ⟨hcommand, hpath⟩
  exact Prod.ext hcommand hpath

end Flattened

/-! ## Built models -/

/-- The parameters of a command or of a node: they are those of the signature of its function, the fields of
each fit together, and no position is taken twice. -/
structure IsScope (function : Option Binding) (parameters : List Parameter) : Prop where
  /-- There is one parameter for each of the signature, in order, with its name and type. -/
  signature_eq : parameters.map Parameter.signature
    = ((function.map (·.parameters)).getD []).map fun typed => (typed.name, typed.type)
  /-- The fields of each parameter fit together. -/
  wellFormed : ∀ p ∈ parameters, p.IsWellFormed
  /-- No position is taken twice. -/
  positions : (parameters.filterMap (·.position)).Nodup

/-- The parameters of all commands and nodes fit together, and no label is there twice. -/
structure Model.IsWellFormed (model : Model) : Prop where
  /-- The parameters of every command. -/
  commands : ∀ command ∈ model.commands, IsScope command.function command.parameters
  /-- The parameters of every node. -/
  nodes : ∀ command ∈ model.commands, ∀ node ∈ command.nodes, IsScope node.function node.parameters
  /-- The labels of commands and nodes are different. -/
  labels : model.labels.Nodup

theorem Parameter.IsWellFormed.takenPosition?_eq {p : Parameter} (h : p.IsWellFormed) :
    p.takenPosition? = p.position := by
  rw [Parameter.takenPosition?]
  by_cases hpositional : p.positional = true
  · rw [if_pos hpositional]
  · have hnone : ¬ p.position.isSome = true := mt h.positional_iff.mpr hpositional
    rw [if_neg hpositional, Option.not_isSome_iff_eq_none.mp hnone]

theorem Parameter.IsWellFormed.position_ne_zero {p : Parameter} (h : p.IsWellFormed) :
    p.position ≠ some 0 := by
  intro hzero
  exact absurd (h.one_le_position 0 hzero) (by decide)

/-- The faults of the positions of well formed parameters are the positions that are repeated. -/
theorem positionFaults_of_isWellFormed {parameters : List Parameter} (h : ∀ p ∈ parameters, p.IsWellFormed)
    (path : String) :
    positionFaults path [] parameters
      = (repeated (parameters.filterMap (·.position))).map (Fault.duplicatePosition path) := by
  rw [positionFaults_eq_map, repeated, List.filterMap_congr fun p hp => (h p hp).takenPosition?_eq]
  intro p hp
  rw [(h p hp).takenPosition?_eq]
  exact ⟨(h p hp).positional_of_vararg, (h p hp).position_ne_zero⟩

/-- Completed parameters whose positions have no fault. -/
theorem Branch.IsWellFormed.isScope_of_completes {branch : Branch} (hbranch : branch.IsWellFormed)
    {name label : String} {path : List String} {function : Option Binding} {final : List Parameter}
    (hfinal : List.Forall₂ (branch.Completes name path) (branch.parametersAt path) final)
    (hfunction : function = (branch.declared? path).map (·.binding))
    (hfaults : positionFaults label [] final = []) : IsScope function final where
  signature_eq := by
    rw [hfunction, Branch.map_signature_of_completes hfinal, hbranch.map_signature_parametersAt]
  wellFormed := hbranch.isWellFormed_of_completes hfinal
  positions := by
    rw [positionFaults_of_isWellFormed (hbranch.isWellFormed_of_completes hfinal), List.map_eq_nil_iff,
      repeated_eq_nil_iff] at hfaults
    exact hfaults

/-- The check of a built model has found nothing in its commands. -/
theorem faults_of_build {units : List SourceUnit} {settings : Settings} {outcome : Outcome}
    (h : build units settings = .ok outcome) {command : Command} (hcommand : command ∈ outcome.model.commands) :
    command.faults = [] :=
  (Model.faults_eq_nil_iff.mp (flatten_of_build h).2).2 command hcommand

/-- The parameters of each command of a built model, and of each of its nodes. -/
theorem isScope_of_build {units : List SourceUnit} {settings : Settings} {outcome : Outcome}
    (h : build units settings = .ok outcome) {command : Command} (hcommand : command ∈ outcome.model.commands) :
    IsScope command.function command.parameters ∧
      ∀ node ∈ command.nodes, IsScope node.function node.parameters := by
  have hflatten := (flatten_of_build h).1
  rw [← CommandTree.insertEach_empty] at hflatten
  have hbranches := Branch.isWellFormed_insertEach (fun _ => isWellFormed_of_mem_yield units) command.name
  rcases CommandTree.flatten_branch_name hflatten hcommand with ⟨row, hbranch⟩
  rcases Command.faults_eq_nil_iff.mp (faults_of_build h hcommand) with ⟨-, -, hparameters, -, hnodes⟩
  constructor
  · exact hbranches.isScope_of_completes (Branch.isCompleted_of_flatten row hbranch).root
      (Branch.displays_of_flatten row hbranch).function_eq (parameterFaults_eq_nil_iff.mp hparameters).1
  · intro node hnode
    exact hbranches.isScope_of_completes ((Branch.isCompleted_of_flatten row hbranch).nodes node hnode)
      (Branch.node_displays_of_flatten row hbranch hnode).function_eq
      (Command.nodeFaults_eq_nil_iff.mp (hnodes node hnode)).1

/-- Every built model is well formed. -/
theorem isWellFormed_of_build {units : List SourceUnit} {settings : Settings} {outcome : Outcome}
    (h : build units settings = .ok outcome) : outcome.model.IsWellFormed := by
  have hflatten := (flatten_of_build h).1
  rw [← CommandTree.insertEach_empty] at hflatten
  have hlabels := nodup_labels_of_flatten (fun _ => isWellFormed_of_mem_yield units) hflatten
  exact ⟨fun _ hcommand => (isScope_of_build h hcommand).1, fun _ hcommand => (isScope_of_build h hcommand).2,
    hlabels⟩

/-- A unit with a command that takes an archive and any number of files, and a subcommand that defers to the
command for the archive. -/
def archiveUnit : SourceUnit where
  package := "example.com/tar"
  file := "main.go"
  functions :=
    [{ name := "Tar"
       doc := "Tar is a subcommand \x60tar\x60 that packs\nFlags:\n\n\tarchive: @1 the archive"
       parameters := [{ name := "archive", typeText := "string" },
         { name := "files", typeText := "string", variadic := true }] },
      { name := "Check"
        doc := "Check is a subcommand \x60tar check\x60 that checks\nFlags:\n\n\tarchive: (from: parent)"
        parameters := [{ name := "archive", typeText := "string" },
          { name := "dryRun", typeText := "bool" }] }]

/-- Its model is well formed; the files come behind the archive. -/
theorem isWellFormed_of_build_archive :
    ∃ outcome, build [archiveUnit] {} = .ok outcome ∧ outcome.model.IsWellFormed ∧
      ∃ command ∈ outcome.model.commands, command.parameters.filterMap (·.position) = [1, 2] := by
  have hok : (build [archiveUnit] {}).map (fun outcome => decide (∃ command ∈ outcome.model.commands,
      command.parameters.filterMap (·.position) = [1, 2])) = .ok true := by
    decide +kernel
  rcases map_eq_ok_iff.mp hok with ⟨outcome, houtcome, hpositions⟩
  exact ⟨outcome, houtcome, isWellFormed_of_build houtcome, of_decide_eq_true hpositions⟩

end CommandDoc
