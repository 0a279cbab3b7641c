import CommandDoc.Proofs.Build.Assembly
import CommandDoc.Proofs.Warning

/-!
# Independence of the order of sources

The functions of a build can be listed in any order and divided among units in any way, as long as each
stays in its package and file.  What a build ends with depends on none of that.

Main definitions:

- `Rearranged`: units that hold the same functions in other orders and divisions.
- `buildEach`: a build to which units are added one by one.

Main results:

- Theorem `rearranged_iff_perm`: rearranging units is permuting their functions.
- Theorem `build_rearranged`: rearranged units are built into the same outcome, at once or one by one.
-/

namespace CommandDoc

/-! ## Rearrangements -/

/-- A unit of the same package and file with other functions. -/
def SourceUnit.holding (source : SourceUnit) (fs : List SourceFunction) : SourceUnit :=
  { source with functions := fs }

/-- The second units hold the functions of the first ones. -/
inductive Rearranged : List SourceUnit → List SourceUnit → Prop
  /-- Units stand in another order. -/
  | units {us vs : List SourceUnit} (h : us.Perm vs) : Rearranged us vs
  /-- The functions of one unit stand in another order. -/
  | functions (before after : List SourceUnit) (source : SourceUnit) {fs gs : List SourceFunction}
      (h : fs.Perm gs) :
      Rearranged (before ++ source.holding fs :: after) (before ++ source.holding gs :: after)
  /-- One unit is split into any number of units of the same package and file. -/
  | split (before after : List SourceUnit) (source : SourceUnit) (parts : List (List SourceFunction)) :
      Rearranged (before ++ source.holding parts.flatten :: after)
        (before ++ parts.map source.holding ++ after)
  /-- A rearrangement can be undone. -/
  | symm {us vs : List SourceUnit} (h : Rearranged us vs) : Rearranged vs us
  /-- Rearrangements can follow each other. -/
  | trans {us vs ws : List SourceUnit} (h : Rearranged us vs) (h' : Rearranged vs ws) : Rearranged us ws

theorem functionUnits_append (us vs : List SourceUnit) :
    functionUnits (us ++ vs) = functionUnits us ++ functionUnits vs := by
  rw [functionUnits, functionUnits, functionUnits, List.flatMap_append]

theorem functionUnits_holding_cons (source : SourceUnit) (fs : List SourceFunction)
    (us : List SourceUnit) :
    functionUnits (source.holding fs :: us) = fs.map source.single ++ functionUnits us := by
  rw [functionUnits, List.flatMap_cons]
  rfl

theorem functionUnits_map_holding (source : SourceUnit) (parts : List (List SourceFunction)) :
    functionUnits (parts.map source.holding) = parts.flatten.map source.single := by
  induction parts with
  | nil => rfl
  | cons fs parts ih =>
    rw [List.map_cons, functionUnits_holding_cons, ih, List.flatten_cons, List.map_append]

namespace Rearranged

theorem perm {us vs : List SourceUnit} (h : Rearranged us vs) :
    (functionUnits us).Perm (functionUnits vs) := by
  induction h with
  | units h => exact h.flatMap_right _
  | functions before after source h =>
    rw [functionUnits_append, functionUnits_append, functionUnits_holding_cons,
      functionUnits_holding_cons]
    exact ((h.map _).append_right _).append_left _
  | split before after source parts =>
    rw [functionUnits_append, functionUnits_append, functionUnits_append, functionUnits_holding_cons,
      functionUnits_map_holding, List.append_assoc]
  | symm _ ih => exact ih.symm
  | trans _ _ ih₁ ih₂ => exact ih₁.trans ih₂

theorem cons (source : SourceUnit) {us vs : List SourceUnit} (h : Rearranged us vs) :
    Rearranged (source :: us) (source :: vs) := by
  induction h with
  | units h => exact .units (h.cons source)
  | functions before after other h => exact .functions (source :: before) after other h
  | split before after other parts => exact .split (source :: before) after other parts
  | symm _ ih => exact ih.symm
  | trans _ _ ih₁ ih₂ => exact ih₁.trans ih₂

/-- Units can be split until each holds one function. -/
theorem to_functionUnits (us : List SourceUnit) : Rearranged us (functionUnits us) := by
  induction us with
  | nil => exact .units (List.Perm.refl _)
  | cons source us ih =>
    have hsplit := split [] (functionUnits us) source (source.functions.map ([·]))
    have hwhole : source.holding (source.functions.map ([·])).flatten = source := by
      rw [← List.flatMap_def, List.flatMap_singleton']
      rfl
    have hsingles : (source.functions.map ([·])).map source.holding = source.singles := by
      rw [List.map_map]
      rfl
    rw [hwhole, hsingles] at hsplit
    exact (cons source ih).trans hsplit

end Rearranged

/-- Units are rearranged into each other exactly if their functions are permuted. -/
theorem rearranged_iff_perm {us vs : List SourceUnit} :
    Rearranged us vs ↔ (functionUnits us).Perm (functionUnits vs) := by
  constructor
  · exact Rearranged.perm
  · intro h
    exact ((Rearranged.to_functionUnits us).trans (.units h)).trans (Rearranged.to_functionUnits vs).symm

/-! ## Adding units one by one -/

/-- Add units one by one, up to the first that fails. -/
def Assembly.addEach (assembly : Assembly) : List SourceUnit → Assembly × Option BuildError
  | [] => (assembly, none)
  | source :: units =>
    match assembly.addUnit source with
    | (next, none) => next.addEach units
    | (next, some error) => (next, some error)

/-- Build a model from source units that are added one by one. -/
def buildEach (units : List SourceUnit) (settings : Settings) : Except BuildError Outcome :=
  match Assembly.addEach { settings := settings } units with
  | (assembly, none) => assembly.finish
  | (_, some error) => .error error

/-- Units added one by one leave what they leave when added at once, errors included. -/
theorem Assembly.addEach_eq_addUnits (assembly : Assembly) (units : List SourceUnit) :
    assembly.addEach units = assembly.addUnits units := by
  induction units generalizing assembly with
  | nil => rfl
  | cons source units ih =>
    rw [addEach, addUnit, addUnits, List.map_cons]
    cases source.extract with
    | error e => rfl
    | ok extraction =>
      rw [absorbAll, absorbAll]
      cases assembly.absorb extraction with
      | mk next error =>
        cases error with
        | none => exact ih next
        | some error => rfl

theorem buildEach_eq_build (units : List SourceUnit) (settings : Settings) :
    buildEach units settings = build units settings := by
  have hadd := Assembly.addEach_eq_addUnits { settings := settings } units
  cases hall : Assembly.addUnits { settings := settings } units with
  | mk assembly error =>
    rw [hall] at hadd
    cases error with
    | none => simp only [buildEach, build, hadd, hall]
    | some error => simp only [buildEach, build, hadd, hall]

/-! ## Independence -/

/-- The end of a build does not depend on the order in which warnings were found. -/
theorem Assembly.finish_eq_of_perm {assembly other : Assembly} (hsettings : assembly.settings = other.settings)
    (htree : assembly.tree = other.tree) (hwarnings : assembly.warnings.Perm other.warnings) :
    assembly.finish = other.finish := by
  rw [finish, finish, hsettings, htree, Warning.sort_eq_of_perm hwarnings]

/-- A build that succeeds does so from any other arrangement of its sources, with the same outcome. -/
theorem build_eq_ok_of_perm {us vs : List SourceUnit} {settings : Settings} {outcome : Outcome}
    (hperm : (functionUnits us).Perm (functionUnits vs)) (h : build us settings = .ok outcome) :
    build vs settings = .ok outcome := by
  obtain ⟨hparts, hnodup, hfinish⟩ := build_eq_ok_iff.mp h
  -- Trees of permuted declarations are equal only because all places differ.
  have hdeclarations := hperm.flatMap_right fun part => part.yield.declarations
  refine build_eq_ok_iff.mpr ⟨?_, ?_, ?_⟩
  · intro part hpart
    exact hparts part (hperm.mem_iff.mpr hpart)
  · exact (hdeclarations.map _).nodup_iff.mp hnodup
  · rw [← hfinish]
    apply Assembly.finish_eq_of_perm
    · rfl
    · exact (CommandTree.ofDeclarations_eq_of_perm hdeclarations hnodup).symm
    · exact (hperm.flatMap_right fun part => part.yield.warnings).symm

/-- Rearranged units are built into the same model and report, whether they are added at once or one by
one, and one build fails if the other does. -/
theorem build_rearranged {us vs : List SourceUnit} (h : Rearranged us vs) (settings : Settings) :
    (∀ outcome, build us settings = .ok outcome ↔ build vs settings = .ok outcome) ∧
      (∀ outcome, buildEach vs settings = .ok outcome ↔ build us settings = .ok outcome) ∧
        buildEach us settings = build us settings := by
  have hbuild : ∀ outcome, build us settings = .ok outcome ↔ build vs settings = .ok outcome :=
    fun outcome => ⟨build_eq_ok_of_perm h.perm, build_eq_ok_of_perm h.perm.symm⟩
  refine ⟨hbuild, ?_, buildEach_eq_build us settings⟩
  intro outcome
  rw [buildEach_eq_build]
  exact (hbuild outcome).symm

/-- The function behind a command, with a flag. -/
def sampleRun : SourceFunction where
  name := "Run"
  doc := "Run is a subcommand \x60app\x60 that runs\n\nFlags:\n\n\tverbose: --verbose -v talk more"
  parameters := [{ name := "verbose", typeText := "bool" }]

/-- The function behind a subcommand; a build warns that its description is missing. -/
def sampleList : SourceFunction where
  name := "List"
  doc := "List is a subcommand \x60app list\x60"

/-- The function behind a subcommand of a subcommand. -/
def sampleAdd : SourceFunction where
  name := "Add"
  doc := "Add is a subcommand \x60app remote add\x60 that adds"
  parameters := [{ name := "name", typeText := "string" }]

/-- The source file of the sample command. -/
def sampleMain : SourceUnit where
  package := "example.com/app"
  file := "main.go"

/-- The source file of the sample subcommand in another package. -/
def sampleRemote : SourceUnit where
  package := "example.com/app/remote"
  file := "add.go"
  functions := [sampleAdd]

/-- A file with its functions in another order, split, behind another file: the outcome is the same. -/
theorem build_rearranged_sampleMain :
    Rearranged [sampleMain.holding [sampleRun, sampleList], sampleRemote]
        [sampleRemote, sampleMain.holding [sampleList], sampleMain.holding [sampleRun]] ∧
      ∃ outcome,
        build [sampleMain.holding [sampleRun, sampleList], sampleRemote] {} = .ok outcome ∧
          build [sampleRemote, sampleMain.holding [sampleList], sampleMain.holding [sampleRun]] {}
            = .ok outcome ∧
          outcome.report.declarations = 3 ∧ outcome.report.warnings.length = 1 := by
  have hperm : [sampleMain.holding [sampleList], sampleMain.holding [sampleRun], sampleRemote].Perm
      [sampleRemote, sampleMain.holding [sampleList], sampleMain.holding [sampleRun]] :=
    @List.perm_middle _ sampleRemote [sampleMain.holding [sampleList], sampleMain.holding [sampleRun]] []
  have hrearranged : Rearranged [sampleMain.holding [sampleRun, sampleList], sampleRemote]
      [sampleRemote, sampleMain.holding [sampleList], sampleMain.holding [sampleRun]] :=
    ((Rearranged.functions [] [sampleRemote] sampleMain (.swap sampleList sampleRun [])).trans
      (.split [] [sampleRemote] sampleMain [[sampleList], [sampleRun]])).trans (.units hperm)
  have hok : (build [sampleMain.holding [sampleRun, sampleList], sampleRemote] {}).map
      (fun outcome => (outcome.report.declarations, outcome.report.warnings.length)) = .ok (3, 1) := by
    decide +kernel
  obtain ⟨outcome, houtcome, hcounts⟩ := map_eq_ok_iff.mp hok
  have hother := ((build_rearranged hrearranged {}).1 outcome).mp houtcome
  exact ⟨hrearranged, outcome, houtcome, hother, congrArg Prod.fst hcounts, congrArg Prod.snd hcounts⟩

end CommandDoc
