import CommandDoc.Proofs.Build.Rearrangement
import CommandDoc.Proofs.Tree.Recast
import CommandDoc.Proofs.Tree.Row

/-!
# What the settings of a build change

Reserved names change generated names and nothing else, the number of jobs changes nothing, and strictness
only turns warnings into an error.  The settings are read at the end of a build alone: every step there is the
same for models that differ in generated names only.

Main definitions:

- `Outcome.anonymous`: an outcome with all generated names erased, in its model and in its report.
- `Assembly.finishLenient`: the end of a build in which warnings are allowed.

Main results:

- Theorem `CommandTree.anonymous_flatten`: reserved names do not show in a flattened tree without generated
  names.
- Theorem `Assembly.anonymous_finish`: nor do they at the end of a build.
- Theorem `build_settings`: what two builds of the same units under different settings have in common.
-/

namespace CommandDoc

/-! ## Outcomes without generated names -/

/-- A command with its generated names erased. -/
def Command.anonymous (command : Command) : Command :=
  command.recast id fun _ => ""

/-- A model with all generated names erased. -/
def Model.anonymous (model : Model) : Model :=
  { model with commands := model.commands.map Command.anonymous }

/-- The count of a command with its generated name erased. -/
def CommandSummary.anonymous (summary : CommandSummary) : CommandSummary :=
  { summary with structName := "" }

/-- A report with all generated names erased. -/
def Report.anonymous (report : Report) : Report :=
  { report with commands := report.commands.map CommandSummary.anonymous }

/-- An outcome with all generated names erased. -/
def Outcome.anonymous (outcome : Outcome) : Outcome :=
  ⟨outcome.model.anonymous, outcome.report.anonymous⟩

theorem CommandSummary.ofCommand_anonymous (command : Command) :
    ofCommand command.anonymous = (ofCommand command).anonymous := by
  have hsynthetic : (command.nodes.map (Node.rename fun _ => "")).filter Node.isSynthetic
      = (command.nodes.filter Node.isSynthetic).map (Node.rename fun _ => "") := by
    rw [List.filter_map]
    rfl
  have hparameters : (command.nodes.map (Node.rename fun _ => "")).flatMap (·.parameters)
      = command.nodes.flatMap (·.parameters) := by
    rw [List.flatMap_map]
    rfl
  simp only [ofCommand, anonymous, Command.anonymous, Command.recast, hsynthetic, hparameters,
    List.length_map, id]

theorem Report.ofModel_anonymous (model : Model) (declarations : Nat) (warnings : List Warning) :
    ofModel model.anonymous declarations warnings = (ofModel model declarations warnings).anonymous := by
  simp only [ofModel, anonymous, Model.anonymous, List.map_map, Function.comp_def,
    CommandSummary.ofCommand_anonymous]

/-! ## Reserved names in a flattened tree -/

namespace Branch

variable (branch : Branch) (name : String)

theorem anonymous_nodeRow {structNames : List String} (hlength : structNames.length = branch.nodes.length) :
    (branch.nodeRow name structNames).map (Node.rename fun _ => "")
      = branch.nodes.zipIdx.map fun ((path, payload), id) =>
          pathNode name branch.paths id "" path payload := by
  have hnodes : (branch.nodes.zip structNames).map Prod.fst = branch.nodes :=
    List.map_fst_zip (Nat.le_of_eq hlength.symm)
  rw [nodeRow, List.map_map]
  conv_rhs => rw [← hnodes, List.zipIdx_map, List.map_map]
  rfl

/-- The row of a branch depends on the reserved names only in its generated names. -/
theorem anonymous_row (reserved others : List String) :
    (branch.row name reserved).anonymous = (branch.row name others).anonymous := by
  have hnodes : (branch.row name reserved).nodes.map (Node.rename fun _ => "")
      = (branch.row name others).nodes.map (Node.rename fun _ => "") :=
    (branch.anonymous_nodeRow name (branch.length_structNames name reserved)).trans
      (branch.anonymous_nodeRow name (branch.length_structNames name others)).symm
  rw [Command.anonymous, Command.anonymous, Command.recast, Command.recast, hnodes]
  rfl

/-- Erasing generated names before parameters are completed is the same as erasing them afterwards. -/
theorem anonymous_flatten (reserved : List String) :
    (branch.flatten name reserved).map Command.anonymous
      = (branch.row name reserved).anonymous.resolve.map Command.inherit := by
  rw [flatten, Command.anonymous, Command.resolve_recast]
  cases (branch.row name reserved).resolve with
  | error e => rfl
  | ok resolved => exact congrArg Except.ok (resolved.inherit_recast id fun _ => "").symm

end Branch

/-- Reserved names do not show in a flattened tree once generated names are erased, nor in the error if there
is none. -/
theorem CommandTree.anonymous_flatten (tree : CommandTree) (reserved others : List String) :
    (tree.flatten reserved).map Model.anonymous = (tree.flatten others).map Model.anonymous := by
  have hcommands : ∀ reserved, (tree.flatten reserved).map Model.anonymous
      = (tree.commands.mapM fun entry => (Branch.flatten entry.2 entry.1 reserved).map Command.anonymous).map
          Model.ofCommands := by
    intro reserved
    rw [flatten, mapM_eq_map fun _ _ => rfl]
    cases tree.commands.mapM fun entry => Branch.flatten entry.2 entry.1 reserved with
    | error e => rfl
    | ok commands => rfl
  rw [hcommands, hcommands]
  simp only [Branch.anonymous_flatten, Branch.anonymous_row _ _ reserved others]

/-! ## The check of a model without generated names -/

theorem commandFaults_anonymous (seen : List String) (commands : List Command) :
    commandFaults seen (commands.map Command.anonymous) = commandFaults seen commands := by
  induction commands generalizing seen with
  | nil => rfl
  | cons command commands ih =>
    have hname : command.anonymous.name = command.name := rfl
    have hfaults : command.anonymous.faults = command.faults := command.faults_recast id fun _ => ""
    rw [List.map_cons, commandFaults, commandFaults, hname, hfaults, ih, ih]

/-- A model has the same faults whatever its generated names are. -/
theorem Model.faults_anonymous (model : Model) : model.anonymous.faults = model.faults :=
  commandFaults_anonymous [] model.commands

/-! ## The end of a build -/

theorem Outcome.withoutWarnings_anonymous (outcome : Outcome) :
    outcome.anonymous.withoutWarnings = outcome.withoutWarnings.map Outcome.anonymous := by
  have hwarnings : outcome.anonymous.report.warnings = outcome.report.warnings := rfl
  rw [withoutWarnings, withoutWarnings, hwarnings]
  split
  · rfl
  · rfl

namespace Assembly

/-- An assembly for which something else was chosen. -/
def withSettings (assembly : Assembly) (settings : Settings) : Assembly :=
  { assembly with settings := settings }

/-- The end of a build in which warnings are allowed. -/
def finishLenient (assembly : Assembly) (reserved : List String) : Except BuildError Outcome :=
  (assembly.tree.flatten reserved >>= Model.checked).map assembly.outcome

/-- The reserved names and strictness are read at the end of a build, one after the other. -/
theorem finish_withSettings (assembly : Assembly) (settings : Settings) :
    (assembly.withSettings settings).finish
      = assembly.finishLenient settings.reservedNames >>= fun outcome =>
          if settings.strict then outcome.withoutWarnings else .ok outcome :=
  finish_eq (assembly.withSettings settings)

/-- Without generated names, the end of a build in which warnings are allowed does not depend on the reserved
names. -/
theorem anonymous_finishLenient (assembly : Assembly) (reserved : List String) :
    (assembly.finishLenient reserved).map Outcome.anonymous
      = ((assembly.tree.flatten reserved).map Model.anonymous >>= Model.checked).map assembly.outcome := by
  rw [finishLenient]
  cases assembly.tree.flatten reserved with
  | error e => rfl
  | ok model =>
    change (model.checked.map assembly.outcome).map Outcome.anonymous
      = model.anonymous.checked.map assembly.outcome
    rw [Model.checked, Model.checked, Model.faults_anonymous]
    split
    · change Except.ok (assembly.outcome model).anonymous = Except.ok (assembly.outcome model.anonymous)
      rw [outcome, outcome, Report.ofModel_anonymous]
      rfl
    · rfl

/-- Without generated names, the end of a build does not depend on the reserved names and on the number of
jobs. -/
theorem anonymous_finish (assembly : Assembly) {settings other : Settings}
    (hstrict : settings.strict = other.strict) :
    (assembly.withSettings settings).finish.map Outcome.anonymous
      = (assembly.withSettings other).finish.map Outcome.anonymous := by
  have hmap : ∀ settings : Settings, (assembly.withSettings settings).finish.map Outcome.anonymous
      = (assembly.finishLenient settings.reservedNames).map Outcome.anonymous >>= fun outcome =>
          if settings.strict then outcome.withoutWarnings else .ok outcome := by
    intro settings
    rw [finish_withSettings]
    cases assembly.finishLenient settings.reservedNames with
    | error e => rfl
    | ok outcome =>
      change (if settings.strict then outcome.withoutWarnings else .ok outcome).map Outcome.anonymous
        = if settings.strict then outcome.anonymous.withoutWarnings else .ok outcome.anonymous
      rw [Outcome.withoutWarnings_anonymous]
      split
      · rfl
      · rfl
  rw [hmap, hmap, hstrict, anonymous_finishLenient, anonymous_finishLenient,
    assembly.tree.anonymous_flatten settings.reservedNames other.reservedNames]

/-- What is collected from extractions does not depend on the settings. -/
theorem absorbAll_withSettings (assembly : Assembly) (settings : Settings)
    (extractions : List (Except BuildError Extraction)) :
    (assembly.withSettings settings).absorbAll extractions
      = ((assembly.absorbAll extractions).1.withSettings settings,
          (assembly.absorbAll extractions).2) := by
  induction extractions generalizing assembly with
  | nil => rfl
  | cons extraction extractions ih =>
    cases extraction with
    | error e => rfl
    | ok extraction =>
      have habsorb : (assembly.withSettings settings).absorb extraction
          = ((assembly.absorb extraction).1.withSettings settings, (assembly.absorb extraction).2) := rfl
      rw [absorbAll, absorbAll, habsorb]
      cases assembly.absorb extraction with
      | mk next error =>
        cases error with
        | none => exact ih next
        | some error => rfl

end Assembly

/-! ## Builds -/

/-- Units either cannot be collected, under no settings, or are collected into one assembly under all of
them. -/
theorem build_cases (units : List SourceUnit) :
    (∃ error, ∀ settings, build units settings = .error error) ∨
      ∃ assembly : Assembly, ∀ settings, build units settings = (assembly.withSettings settings).finish := by
  have hadd : ∀ settings, Assembly.addUnits { settings := settings } units
      = ((Assembly.addUnits {} units).1.withSettings settings, (Assembly.addUnits {} units).2) :=
    fun settings => Assembly.absorbAll_withSettings {} settings (units.map SourceUnit.extract)
  cases hunits : Assembly.addUnits {} units with
  | mk assembly error =>
    cases error with
    | none =>
      refine Or.inr ⟨assembly, fun settings => ?_⟩
      rw [build, hadd, hunits]
    | some error =>
      refine Or.inl ⟨error, fun settings => ?_⟩
      rw [build, hadd, hunits]

/-- A strict build goes on from the lenient one, and refuses warnings. -/
theorem build_strict (units : List SourceUnit) (settings : Settings) :
    build units { settings with strict := true }
      = build units { settings with strict := false } >>= Outcome.withoutWarnings := by
  rcases build_cases units with ⟨error, hbuild⟩ | ⟨assembly, hbuild⟩
  · rw [hbuild, hbuild]
    rfl
  · rw [hbuild, hbuild, Assembly.finish_withSettings, Assembly.finish_withSettings]
    cases assembly.finishLenient settings.reservedNames with
    | error e => rfl
    | ok outcome => rfl

/-- Builds of the same units under other reserved names and another number of jobs end with the same error, or
with outcomes that differ in generated names only.  A strict build succeeds exactly if the lenient one does
and warns of nothing, and then with the same outcome; it fails with the same error if the lenient one does,
and else with the number of warnings. -/
theorem build_settings (units : List SourceUnit) (settings : Settings) :
    (∀ reserved jobs,
        (build units { settings with reservedNames := reserved, jobs := jobs }).map Outcome.anonymous
          = (build units settings).map Outcome.anonymous) ∧
      (∀ outcome, build units { settings with strict := true } = .ok outcome ↔
        build units { settings with strict := false } = .ok outcome ∧ outcome.report.warnings = []) ∧
      (∀ error, build units { settings with strict := false } = .error error →
        build units { settings with strict := true } = .error error) ∧
      ∀ outcome, build units { settings with strict := false } = .ok outcome →
        outcome.report.warnings ≠ [] →
          build units { settings with strict := true }
            = .error (.strictWarnings outcome.report.warnings.length) := by
  refine ⟨?_, ?_, ?_, ?_⟩
  · intro reserved jobs
    rcases build_cases units with ⟨error, hbuild⟩ | ⟨assembly, hbuild⟩
    · rw [hbuild, hbuild]
    · rw [hbuild, hbuild]
      exact assembly.anonymous_finish rfl
  · intro outcome
    rw [build_strict, bind_eq_ok_iff]
    constructor
    · rintro ⟨lenient, hlenient, hallowed⟩
      obtain ⟨hnone, rfl⟩ := Outcome.withoutWarnings_eq_ok_iff.mp hallowed
      exact ⟨hlenient, hnone⟩
    · rintro ⟨hlenient, hnone⟩
      exact ⟨outcome, hlenient, Outcome.withoutWarnings_eq_ok_iff.mpr ⟨hnone, rfl⟩⟩
  · intro error herror
    rw [build_strict, herror]
    rfl
  · intro outcome houtcome hwarnings
    rw [build_strict, houtcome]
    exact if_neg fun hnone => hwarnings (List.isEmpty_iff.mp hnone)

/-- A reserved name shows in the generated name of the command and nowhere else.  The warning about its
subcommand stops a strict build, which goes through without that subcommand and fails alike when a function is
listed twice. -/
theorem build_settings_sampleMain :
    (∃ outcome other,
      build [sampleMain.holding [sampleRun, sampleList]] {} = .ok outcome ∧
        build [sampleMain.holding [sampleRun, sampleList]] { reservedNames := ["Run"], jobs := some 4 }
          = .ok other ∧
        outcome.report.commands.map (·.structName) = ["Run"] ∧
        other.report.commands.map (·.structName) = ["Run2"] ∧
        outcome.anonymous = other.anonymous ∧
        build [sampleMain.holding [sampleRun, sampleList]] { strict := true } = .error (.strictWarnings 1)) ∧
      (∃ outcome, build [sampleMain.holding [sampleRun]] { strict := true } = .ok outcome) ∧
      build [sampleMain.holding [sampleRun, sampleRun]] { strict := true }
        = .error (.duplicateDefinition "app" "example.com/app.Run (main.go)"
            "example.com/app.Run (main.go)") := by
  refine ⟨?_, ?_, ?_⟩
  · have hok : (build [sampleMain.holding [sampleRun, sampleList]] {}).map (fun outcome =>
        (outcome.report.commands.map (·.structName), outcome.report.warnings.length)) = .ok (["Run"], 1) := by
      decide +kernel
    have hother : (build [sampleMain.holding [sampleRun, sampleList]]
        { reservedNames := ["Run"], jobs := some 4 }).map (fun outcome =>
          outcome.report.commands.map (·.structName)) = .ok ["Run2"] := by
      decide +kernel
    obtain ⟨outcome, houtcome, hcounts⟩ := map_eq_ok_iff.mp hok
    obtain ⟨other, hreserved, hnames⟩ := map_eq_ok_iff.mp hother
    obtain ⟨hsettings, -, -, hstrict⟩ := build_settings [sampleMain.holding [sampleRun, sampleList]] {}
    have hsame := hsettings ["Run"] (some 4)
    rw [hreserved, houtcome] at hsame
    have hone : outcome.report.warnings.length = 1 := congrArg Prod.snd hcounts
    have hwarnings : outcome.report.warnings ≠ [] := List.ne_nil_of_length_eq_add_one hone
    refine ⟨outcome, other, houtcome, hreserved, congrArg Prod.fst hcounts, hnames, ?_, ?_⟩
    · exact (Except.ok.inj hsame).symm
    · rw [← hone]
      exact hstrict outcome houtcome hwarnings
  · have hok : (build [sampleMain.holding [sampleRun]] {}).map (fun outcome =>
        outcome.report.warnings) = .ok [] := by
      decide +kernel
    obtain ⟨outcome, houtcome, hnone⟩ := map_eq_ok_iff.mp hok
    exact ⟨outcome, ((build_settings [sampleMain.holding [sampleRun]] {}).2.1 outcome).mpr ⟨houtcome, hnone⟩⟩
  · have herror : build [sampleMain.holding [sampleRun, sampleRun]] {}
        = .error (.duplicateDefinition "app" "example.com/app.Run (main.go)"
            "example.com/app.Run (main.go)") := by
      decide +kernel
    exact (build_settings [sampleMain.holding [sampleRun, sampleRun]] {}).2.2.1 _ herror

end CommandDoc
