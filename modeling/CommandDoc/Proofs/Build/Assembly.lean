import CommandDoc.Build.Basic
import CommandDoc.Proofs.Except
import CommandDoc.Proofs.Tree.Contents

/-!
# What a build collects

A build reads units one after another, and a unit its functions.  What it collects depends on the functions
only, each taken as a unit of its own: it succeeds if all of them can be read and declare different places,
and then its tree is the closed form of their declarations.

Main definitions:

- `functionUnits` and `Assembly.ofUnits`: the functions of units, and what an assembly holds after them.
- `Model.checked`, `Assembly.outcome` and `Outcome.withoutWarnings`: the last steps of a build.

Main results:

- Theorem `SourceUnit.extract_eq_ok_iff`: a unit yields what its functions yield.
- Theorem `Assembly.addUnits_eq_none_iff`: what an assembly holds after units are added.
- Theorem `build_eq_ok_iff`: when a build succeeds, and with what.
- Theorem `Assembly.finish_eq`: the steps in which a build ends.
- Theorem `Assembly.finish_eq_ok_iff`: what the end of a build that succeeds has checked.
-/

namespace CommandDoc

/-! ## Units and functions -/

namespace SourceUnit

/-- One function of a unit as a unit of its own. -/
def single (source : SourceUnit) (f : SourceFunction) : SourceUnit :=
  { source with functions := [f] }

/-- A unit taken apart into units of one function each. -/
def singles (source : SourceUnit) : List SourceUnit :=
  source.functions.map source.single

/-- Whether a unit can be read. -/
def IsReadable (source : SourceUnit) : Prop :=
  ∃ extraction, source.extract = .ok extraction

/-- What a unit yields, which is nothing if it cannot be read. -/
def yield (source : SourceUnit) : Extraction :=
  source.extract.toOption.getD {}

/-- What a unit yields is what it extracts to, if it does. -/
theorem yield_of_extract {source : SourceUnit} {extraction : Extraction}
    (h : source.extract = .ok extraction) : source.yield = extraction := by
  rw [yield, h]
  rfl

/-- A unit with one function extracts to what the function does. -/
theorem extract_single (source : SourceUnit) (f : SourceFunction) :
    (source.single f).extract = source.extractFunction f := by
  have hsame : (source.single f).extractFunction f = source.extractFunction f := rfl
  rw [extract, single, List.mapM_cons, List.mapM_nil]
  unfold single at hsame
  rw [hsame]
  cases source.extractFunction f with
  | error e => rfl
  | ok part => simp [pure, Except.pure, bind, Except.bind]

/-- Reading functions one after another succeeds exactly if each can be read alone. -/
theorem mapM_extractFunction_eq_ok_iff {source : SourceUnit} {fs : List SourceFunction}
    {parts : List Extraction} :
    fs.mapM source.extractFunction = .ok parts ↔
      (∀ f ∈ fs, (source.single f).IsReadable) ∧ parts = fs.map fun f => (source.single f).yield := by
  induction fs generalizing parts with
  | nil => simp [pure, Except.pure, eq_comm]
  | cons f fs ih =>
    rw [List.mapM_cons, bind_eq_ok_iff]
    constructor
    · rintro ⟨part, hpart, hcons⟩
      obtain ⟨rest, hrest, heq⟩ := bind_eq_ok_iff.mp hcons
      cases heq
      rw [← extract_single] at hpart
      obtain ⟨hreadable, rfl⟩ := ih.mp hrest
      refine ⟨?_, by rw [List.map_cons, yield_of_extract hpart]⟩
      intro g hg
      rcases List.mem_cons.mp hg with rfl | hg
      · exact ⟨part, hpart⟩
      · exact hreadable g hg
    · rintro ⟨hreadable, rfl⟩
      obtain ⟨part, hpart⟩ := hreadable f List.mem_cons_self
      have hrest := ih.mpr ⟨fun g hg => hreadable g (List.mem_cons_of_mem _ hg), rfl⟩
      refine ⟨part, by rw [← extract_single, hpart], bind_eq_ok_iff.mpr ⟨_, hrest, ?_⟩⟩
      rw [List.map_cons, yield_of_extract hpart]
      rfl

/-- A unit can be read exactly if each of its functions can, and yields what they yield. -/
theorem extract_eq_ok_iff {source : SourceUnit} {extraction : Extraction} :
    source.extract = .ok extraction ↔
      (∀ part ∈ source.singles, part.IsReadable) ∧
        extraction = ⟨source.singles.flatMap (·.yield.declarations),
          source.singles.flatMap (·.yield.warnings)⟩ := by
  rw [extract, bind_eq_ok_iff]
  simp only [mapM_extractFunction_eq_ok_iff, singles, List.forall_mem_map, List.flatMap_map]
  constructor
  · rintro ⟨parts, ⟨hreadable, rfl⟩, heq⟩
    cases heq
    simp only [List.flatMap_map]
    exact ⟨hreadable, trivial⟩
  · rintro ⟨hreadable, rfl⟩
    refine ⟨_, ⟨hreadable, rfl⟩, ?_⟩
    simp only [List.flatMap_map]
    rfl

/-- A unit is readable exactly if each of its functions is. -/
theorem isReadable_iff {source : SourceUnit} :
    source.IsReadable ↔ ∀ part ∈ source.singles, part.IsReadable := by
  constructor
  · rintro ⟨extraction, h⟩
    exact (extract_eq_ok_iff.mp h).1
  · intro h
    exact ⟨_, extract_eq_ok_iff.mpr ⟨h, rfl⟩⟩

/-- A readable unit yields what its functions do, in their order. -/
theorem yield_eq {source : SourceUnit} (h : source.IsReadable) :
    source.yield = ⟨source.singles.flatMap (·.yield.declarations),
      source.singles.flatMap (·.yield.warnings)⟩ :=
  yield_of_extract (extract_eq_ok_iff.mpr ⟨isReadable_iff.mp h, rfl⟩)

end SourceUnit

/-! ## Assemblies -/

/-- Inserting two lists is accepted exactly if the first is, and the second into what it leaves. -/
theorem CommandTree.insertAll_append_eq_none_iff {tree grown : CommandTree} {ds es : List Declaration} :
    tree.insertAll (ds ++ es) = (grown, none) ↔
      ∃ next, tree.insertAll ds = (next, none) ∧ next.insertAll es = (grown, none) := by
  induction ds generalizing tree with
  | nil => simp [insertAll]
  | cons d ds ih =>
    rw [List.cons_append, insertAll, insertAll]
    split
    · exact ih
    · simp

namespace Assembly

/-- Absorbing what was extracted succeeds exactly if its declarations are accepted. -/
theorem absorb_eq_none_iff {assembly next : Assembly} {extraction : Extraction} :
    assembly.absorb extraction = (next, none) ↔
      ∃ tree, assembly.tree.insertAll extraction.declarations = (tree, none) ∧
        next = { assembly with
          tree := tree, warnings := assembly.warnings ++ extraction.warnings } := by
  unfold absorb
  cases assembly.tree.insertAll extraction.declarations with
  | mk tree error =>
    cases error with
    | none => simp [eq_comm]
    | some error => simp

/-- Adding units succeeds exactly if all can be read and all their declarations are accepted. -/
theorem addUnits_eq_none_iff {assembly next : Assembly} {units : List SourceUnit} :
    assembly.addUnits units = (next, none) ↔
      (∀ source ∈ units, source.IsReadable) ∧
        ∃ tree, assembly.tree.insertAll (units.flatMap (·.yield.declarations)) = (tree, none) ∧
          next = { assembly with
            tree := tree, warnings := assembly.warnings ++ units.flatMap (·.yield.warnings) } := by
  induction units generalizing assembly with
  | nil => simp [addUnits, absorbAll, CommandTree.insertAll, eq_comm]
  | cons source units ih =>
    rw [addUnits, List.map_cons]
    cases hextract : source.extract with
    | error e =>
      rw [absorbAll]
      constructor
      · intro h
        exact absurd (congrArg Prod.snd h) (by simp)
      · rintro ⟨hreadable, _⟩
        obtain ⟨extraction, hok⟩ := hreadable source List.mem_cons_self
        rw [hextract] at hok
        cases hok
    | ok extraction =>
      -- The induction hypothesis speaks of the assembly behind this unit, so the step comes first.
      have hyield := SourceUnit.yield_of_extract hextract
      have hstep : assembly.absorbAll (.ok extraction :: units.map SourceUnit.extract) = (next, none) ↔
          ∃ middle, assembly.absorb extraction = (middle, none) ∧
            middle.addUnits units = (next, none) := by
        rw [absorbAll]
        cases assembly.absorb extraction with
        | mk middle error =>
          cases error with
          | none => simp [addUnits]
          | some error => simp
      rw [hstep]
      simp only [absorb_eq_none_iff, ih, List.flatMap_cons, hyield,
        CommandTree.insertAll_append_eq_none_iff, List.forall_mem_cons]
      constructor
      · rintro ⟨_, ⟨middle, hmiddle, rfl⟩, hreadable, tree, htree, rfl⟩
        refine ⟨⟨⟨extraction, hextract⟩, hreadable⟩, tree, ⟨middle, hmiddle, htree⟩, ?_⟩
        rw [List.append_assoc]
      · rintro ⟨⟨_, hreadable⟩, tree, ⟨middle, hmiddle, htree⟩, rfl⟩
        refine ⟨_, ⟨middle, hmiddle, rfl⟩, hreadable, tree, htree, ?_⟩
        rw [List.append_assoc]

end Assembly

/-! ## Builds -/

/-- The functions of units, each as a unit of its own. -/
def functionUnits (units : List SourceUnit) : List SourceUnit :=
  units.flatMap SourceUnit.singles

theorem forall_isReadable_iff {units : List SourceUnit} :
    (∀ source ∈ units, source.IsReadable) ↔ ∀ part ∈ functionUnits units, part.IsReadable := by
  rw [functionUnits, List.forall_mem_flatMap]
  exact forall₂_congr fun source _ => SourceUnit.isReadable_iff

/-- Whatever units declare, one of them declares that can be read. -/
theorem exists_extract_of_mem_yield {units : List SourceUnit} {d : Declaration}
    (h : d ∈ units.flatMap (·.yield.declarations)) :
    ∃ source ∈ units, ∃ extraction, source.extract = .ok extraction ∧ d ∈ extraction.declarations := by
  rcases List.mem_flatMap.mp h with ⟨source, hsource, hd⟩
  rw [SourceUnit.yield] at hd
  cases hextract : source.extract with
  | error e =>
    rw [hextract] at hd
    cases hd
  | ok extraction =>
    rw [hextract] at hd
    exact ⟨source, hsource, extraction, hextract, hd⟩

/-- What each unit has from its functions, all units together have from theirs. -/
theorem flatMap_functionUnits {β : Type} {units : List SourceUnit} {f : SourceUnit → List β}
    (h : ∀ source ∈ units, f source = source.singles.flatMap f) :
    (functionUnits units).flatMap f = units.flatMap f := by
  rw [functionUnits, List.flatMap_assoc]
  exact (List.flatMap_congr h).symm

/-- Cutting units into their functions keeps the declarations, in their order. -/
theorem declarations_functionUnits {units : List SourceUnit}
    (h : ∀ part ∈ functionUnits units, part.IsReadable) :
    (functionUnits units).flatMap (·.yield.declarations) = units.flatMap (·.yield.declarations) :=
  flatMap_functionUnits fun source hsource => by
    rw [SourceUnit.yield_eq (forall_isReadable_iff.mpr h source hsource)]

/-- What an assembly holds after all functions of some units. -/
def Assembly.ofUnits (units : List SourceUnit) (settings : Settings) : Assembly where
  settings := settings
  tree := .ofDeclarations ((functionUnits units).flatMap (·.yield.declarations))
  warnings := (functionUnits units).flatMap (·.yield.warnings)

/-- Units are added without an error exactly if all their functions can be read and declare different
places. -/
theorem Assembly.addUnits_start_eq_none_iff {units : List SourceUnit} {settings : Settings}
    {next : Assembly} :
    Assembly.addUnits { settings := settings } units = (next, none) ↔
      (∀ part ∈ functionUnits units, part.IsReadable) ∧
        (((functionUnits units).flatMap (·.yield.declarations)).map Declaration.place).Nodup ∧
          next = .ofUnits units settings := by
  rw [addUnits_eq_none_iff, forall_isReadable_iff]
  refine and_congr_right fun hparts => ?_
  have hunits := forall_isReadable_iff.mpr hparts
  have hwarnings : (functionUnits units).flatMap (·.yield.warnings) = units.flatMap (·.yield.warnings) :=
    flatMap_functionUnits fun source hsource => by rw [SourceUnit.yield_eq (hunits source hsource)]
  unfold ofUnits
  rw [declarations_functionUnits hparts, hwarnings]
  constructor
  · rintro ⟨tree, htree, rfl⟩
    obtain ⟨hnodup, rfl⟩ := CommandTree.insertAll_eq_none_iff.mp htree
    exact ⟨hnodup, rfl⟩
  · rintro ⟨hnodup, rfl⟩
    exact ⟨_, CommandTree.insertAll_eq_none_iff.mpr ⟨hnodup, rfl⟩, rfl⟩

/-- A build succeeds exactly if all functions can be read, they declare different places, and what they
yield together can be finished. -/
theorem build_eq_ok_iff {units : List SourceUnit} {settings : Settings} {outcome : Outcome} :
    build units settings = .ok outcome ↔
      (∀ part ∈ functionUnits units, part.IsReadable) ∧
        (((functionUnits units).flatMap (·.yield.declarations)).map Declaration.place).Nodup ∧
          (Assembly.ofUnits units settings).finish = .ok outcome := by
  unfold build
  have hadd := @Assembly.addUnits_start_eq_none_iff units settings
  cases h : Assembly.addUnits { settings := settings } units with
  | mk next error =>
    rw [h] at hadd
    cases error with
    | none =>
      obtain ⟨hparts, hnodup, rfl⟩ := hadd.mp rfl
      exact ⟨fun hfinish => ⟨hparts, hnodup, hfinish⟩, fun hall => hall.2.2⟩
    | some error =>
      constructor
      · intro herror
        cases herror
      · rintro ⟨hparts, hnodup, -⟩
        have himpossible := hadd.mpr ⟨hparts, hnodup, rfl⟩
        cases himpossible

/-! ## The end of a build -/

/-- A model that is checked. -/
def Model.checked (model : Model) : Except BuildError Model :=
  if model.faults.isEmpty then .ok model else .error (.invalid model.faults)

/-- A model passes the check exactly if it has no faults, and is then left as it is. -/
theorem Model.checked_eq_ok_iff {model checked : Model} :
    model.checked = .ok checked ↔ model.faults = [] ∧ model = checked := by
  rw [Model.checked]
  cases model.faults with
  | nil => simp
  | cons fault faults => simp

/-- An outcome where no warning is allowed. -/
def Outcome.withoutWarnings (outcome : Outcome) : Except BuildError Outcome :=
  if outcome.report.warnings.isEmpty then .ok outcome
  else .error (.strictWarnings outcome.report.warnings.length)

/-- Only an outcome without warnings passes where warnings are errors. -/
theorem Outcome.withoutWarnings_eq_ok_iff {outcome allowed : Outcome} :
    outcome.withoutWarnings = .ok allowed ↔ outcome.report.warnings = [] ∧ outcome = allowed := by
  rw [withoutWarnings]
  cases outcome.report.warnings with
  | nil => simp
  | cons warning warnings => simp

namespace Assembly

/-- What a build ends with if it ends with this model. -/
def outcome (assembly : Assembly) (model : Model) : Outcome :=
  ⟨model, Report.ofModel model assembly.tree.size (Warning.sort assembly.warnings)⟩

/-- A build ends in four steps: its tree is flattened, the model is checked and reported about, and in the end
warnings are refused if none is allowed. -/
theorem finish_eq (assembly : Assembly) :
    assembly.finish
      = (assembly.tree.flatten assembly.settings.reservedNames >>= Model.checked).map assembly.outcome >>=
          fun outcome => if assembly.settings.strict then outcome.withoutWarnings else .ok outcome := by
  rw [finish]
  cases assembly.tree.flatten assembly.settings.reservedNames with
  | error e => rfl
  | ok model =>
    simp only [bind, Except.bind, Model.checked]
    cases hfaults : model.faults with
    | cons fault faults => rfl
    | nil =>
      change (if assembly.settings.strict && !(Warning.sort assembly.warnings).isEmpty then _ else _)
        = if assembly.settings.strict then (assembly.outcome model).withoutWarnings else _
      cases assembly.settings.strict with
      | false => rfl
      | true =>
        change (if !(Warning.sort assembly.warnings).isEmpty then _ else _)
          = if (Warning.sort assembly.warnings).isEmpty then _ else _
        cases (Warning.sort assembly.warnings).isEmpty with
        | true => rfl
        | false => rfl

/-- The end of a build succeeds exactly if the tree can be flattened into a model without faults, and there
is no warning where none is allowed. -/
theorem finish_eq_ok_iff {assembly : Assembly} {outcome : Outcome} :
    assembly.finish = .ok outcome ↔
      ∃ model, assembly.tree.flatten assembly.settings.reservedNames = .ok model ∧ model.faults = [] ∧
        (assembly.settings.strict = true → Warning.sort assembly.warnings = []) ∧
          outcome = ⟨model, Report.ofModel model assembly.tree.size (Warning.sort assembly.warnings)⟩ := by
  rw [finish_eq, bind_eq_ok_iff]
  simp only [map_eq_ok_iff, bind_eq_ok_iff, Model.checked_eq_ok_iff]
  constructor
  · rintro ⟨_, ⟨_, ⟨model, hflatten, hfaults, rfl⟩, rfl⟩, hallowed⟩
    refine ⟨model, hflatten, hfaults, ?_⟩
    split at hallowed
    · obtain ⟨hnone, rfl⟩ := Outcome.withoutWarnings_eq_ok_iff.mp hallowed
      exact ⟨fun _ => hnone, rfl⟩
    · next hlenient =>
      cases hallowed
      exact ⟨fun hstrict => absurd hstrict hlenient, rfl⟩
  · rintro ⟨model, hflatten, hfaults, hstrict, rfl⟩
    refine ⟨assembly.outcome model, ⟨model, ⟨model, hflatten, hfaults, rfl⟩, rfl⟩, ?_⟩
    split
    · next hall => exact Outcome.withoutWarnings_eq_ok_iff.mpr ⟨hstrict hall, rfl⟩
    · rfl

end Assembly

/-- A model that was built is the flattened tree of some assembly, and has no faults. -/
theorem flatten_of_build {units : List SourceUnit} {settings : Settings} {outcome : Outcome}
    (h : build units settings = .ok outcome) :
    (CommandTree.ofDeclarations ((functionUnits units).flatMap (·.yield.declarations))).flatten
        settings.reservedNames = .ok outcome.model ∧ outcome.model.faults = [] := by
  obtain ⟨-, -, hfinish⟩ := build_eq_ok_iff.mp h
  obtain ⟨model, hflatten, hfaults, -, rfl⟩ := Assembly.finish_eq_ok_iff.mp hfinish
  exact ⟨hflatten, hfaults⟩

end CommandDoc
