import CommandDoc.Proofs.Build.Rearrangement
import CommandDoc.Proofs.Tree.Refusal

/-!
# What a failed call leaves behind

A build can go on after a call that failed.  A unit that cannot be read leaves nothing behind.  A unit with a
declaration that is refused leaves all its warnings, and the declarations in front of that one: from there on
the build goes on as if a unit with just these had been added.

Main definitions:

- `Call`, `Assembly.calls` and `Assembly.log`: calls one after another, whether they fail or not, and what is
  seen of them.
- `Assembly.noting`: an assembly with a package noted.
- `Outcome.unpackaged`: an outcome that does not say what package a command without a function is for.

Main results:

- Theorem `CommandTree.insertAll_ofDeclarations_eq_some`: where a run of insertions is refused.
- Theorem `Assembly.log_noting` and `Assembly.calls_noting`: a note does not change what calls do.
- Theorem `Assembly.finish_noting`: nor does it change the end of a build, but for the package of a command
  without a function.
- Theorem `Assembly.addUnit_failed`: what a failed call leaves behind.
-/

namespace CommandDoc

/-! ## Insertions that are refused -/

namespace CommandTree

/-- The error about a declaration, if one was offered at its place before. -/
def refusal? (ds : List Declaration) (d : Declaration) : Option BuildError :=
  (ds.find? (·.place == d.place)).map (duplicate · d)

/-- A tree that holds what some declarations left refuses the next one for the reason they give. -/
theorem insert_ofDeclarations_snd (ds : List Declaration) (d : Declaration) :
    ((ofDeclarations ds).insert d).2 = refusal? ds d := by
  have hfirst : firstAt? (declarationsOf ds d.command) d.path = ds.find? (·.place == d.place) := by
    rw [firstAt?, declarationsOf, List.find?_filter]
    congr 1
    funext e
    rw [Bool.eq_iff_iff]
    simp [Declaration.place]
  simp only [insert, branch_ofDeclarations]
  rw [refusal?, ← hfirst, ← Branch.declared?_grow_notePackage_ofDeclarations]
  split <;> simp_all

/-- Inserting into the tree of some declarations gives the tree of those and one more. -/
theorem insert_ofDeclarations_eq (ds : List Declaration) (d : Declaration) :
    (ofDeclarations ds).insert d = (ofDeclarations (ds ++ [d]), refusal? ds d) :=
  Prod.ext (insert_ofDeclarations ds d) (insert_ofDeclarations_snd ds d)

/-- A refused declaration shares its place with the one named in the error. -/
theorem refusal?_eq_some {ds : List Declaration} {d : Declaration} {error : BuildError}
    (h : refusal? ds d = some error) :
    ∃ existing ∈ ds, existing.place = d.place ∧ error = duplicate existing d := by
  rcases Option.map_eq_some_iff.mp h with ⟨existing, hfound, rfl⟩
  exact ⟨existing, List.mem_of_find?_eq_some hfound, by simpa using List.find?_some hfound, rfl⟩

/-- A declaration at a place that is taken does not change which declarations are refused. -/
theorem refusal?_concat {ds : List Declaration} {d : Declaration} (htaken : d.place ∈ ds.map Declaration.place)
    (e : Declaration) : refusal? (ds ++ [d]) e = refusal? ds e := by
  rw [refusal?, refusal?, List.find?_append]
  cases hfound : ds.find? (·.place == e.place) with
  | some existing => rfl
  | none =>
    rcases List.mem_map.mp htaken with ⟨existing, hexisting, hplace⟩
    have hother : (existing.place == e.place) = false := by
      simpa using List.find?_eq_none.mp hfound existing hexisting
    rw [hplace] at hother
    simp [hother]

/-- A run of insertions keeps the closed form. -/
theorem insertAll_ofDeclarations (ds es : List Declaration) :
    ∃ offered, ((ofDeclarations ds).insertAll es).1 = ofDeclarations (ds ++ offered) := by
  induction es generalizing ds with
  | nil => exact ⟨[], by rw [List.append_nil, insertAll]⟩
  | cons e es ih =>
    rw [insertAll, insert_ofDeclarations_eq]
    cases refusal? ds e with
    | some error => exact ⟨[e], rfl⟩
    | none =>
      rcases ih (ds ++ [e]) with ⟨offered, hoffered⟩
      exact ⟨e :: offered, by simpa using hoffered⟩

/-- A run of insertions that is refused takes in the declarations in front of the refused one, which leaves
its note. -/
theorem insertAll_ofDeclarations_eq_some {ds es : List Declaration} {tree : CommandTree} {error : BuildError}
    (h : (ofDeclarations ds).insertAll es = (tree, some error)) :
    ∃ accepted d rest, es = accepted ++ d :: rest ∧
      (ofDeclarations ds).insertAll accepted = (ofDeclarations (ds ++ accepted), none) ∧
      (∃ existing ∈ ds ++ accepted, existing.place = d.place ∧ error = duplicate existing d) ∧
      tree = ofDeclarations (ds ++ accepted ++ [d]) := by
  induction es generalizing ds with
  | nil => simp [insertAll] at h
  | cons e es ih =>
    rw [insertAll, insert_ofDeclarations_eq] at h
    cases hrefusal : refusal? ds e with
    | some first =>
      rw [hrefusal] at h
      simp only [Prod.mk.injEq, Option.some.injEq] at h
      refine ⟨[], e, es, rfl, by rw [List.append_nil, insertAll], ?_, by rw [List.append_nil, h.1]⟩
      rw [← h.2, List.append_nil]
      exact refusal?_eq_some hrefusal
    | none =>
      rw [hrefusal] at h
      rcases ih h with ⟨accepted, d, rest, rfl, haccepted, hexisting, htree⟩
      refine ⟨e :: accepted, d, rest, rfl, ?_, by simpa using hexisting, by simpa using htree⟩
      rw [insertAll, insert_ofDeclarations_eq, hrefusal]
      simpa using haccepted

/-! ## Trees that grow -/

/-- A tree to which insertions lead that start with these declarations. -/
def Follows (tree : CommandTree) (ds : List Declaration) : Prop :=
  ∃ more, tree = ofDeclarations (ds ++ more)

/-- The tree of some declarations follows them. -/
theorem follows_ofDeclarations (ds : List Declaration) : (ofDeclarations ds).Follows ds :=
  ⟨[], by rw [List.append_nil]⟩

/-- A run of insertions starts with what was offered before. -/
theorem Follows.grow {tree : CommandTree} {ds : List Declaration} (h : tree.Follows ds)
    (es : List Declaration) : (tree.insertAll es).1.Follows ds := by
  rcases h with ⟨more, rfl⟩
  rcases insertAll_ofDeclarations (ds ++ more) es with ⟨offered, hoffered⟩
  exact ⟨more ++ offered, by rw [hoffered, List.append_assoc]⟩

/-- A note does not change what a run of insertions does. -/
theorem insertAll_noting {ds : List Declaration} {d : Declaration} (htaken : d.place ∈ ds.map Declaration.place)
    (es : List Declaration) :
    ((ofDeclarations ds).noting d).insertAll es
      = (((ofDeclarations ds).insertAll es).1.noting d, ((ofDeclarations ds).insertAll es).2) := by
  induction es generalizing ds with
  | nil => rfl
  | cons e es ih =>
    have hmore : d.place ∈ (ds ++ [e]).map Declaration.place := by
      rw [List.map_append]
      exact List.mem_append_left _ htaken
    have hnoted : (ofDeclarations ds).noting d = ofDeclarations (ds ++ [d]) := by
      rw [ofDeclarations_taken htaken, List.append_nil]
    -- As the place is taken before, a declaration leaves its note behind `e` as well as in front of it.
    have hnext : ofDeclarations (ds ++ [d] ++ [e]) = (ofDeclarations (ds ++ [e])).noting d := by
      rw [List.append_assoc, List.singleton_append, ofDeclarations_taken htaken]
    rw [insertAll, insertAll, hnoted, insert_ofDeclarations_eq, insert_ofDeclarations_eq,
      refusal?_concat htaken, hnext]
    cases refusal? ds e with
    | some error => rfl
    | none => exact ih hmore

/-- Noting a package adds no declaration. -/
theorem size_noting (tree : CommandTree) (d : Declaration) : (tree.noting d).size = tree.size := by
  have hbranch : ∀ entry : String × Branch,
      (if entry.1 = d.command then entry.2.notePackage d.binding.package else entry.2).declarations
        = entry.2.declarations := by
    intro entry
    split
    · rfl
    · rfl
  rw [size, size, declarations, declarations, noting, List.flatMap_map]
  exact congrArg List.length (List.flatMap_congr fun entry _ => hbranch entry)

end CommandTree

/-! ## Calls -/

/-- A call that adds to a build. -/
inductive Call where
  /-- Add a unit. -/
  | addUnit (source : SourceUnit)
  /-- Add units up to the first error. -/
  | addUnits (sources : List SourceUnit)

namespace Call

/-- What the units of a call yield. -/
def extractions : Call → List (Except BuildError Extraction)
  | addUnit source => [source.extract]
  | addUnits sources => sources.map SourceUnit.extract

end Call

namespace Assembly

/-- Carry out a call. -/
def call (assembly : Assembly) : Call → Assembly × Option BuildError
  | .addUnit source => assembly.addUnit source
  | .addUnits sources => assembly.addUnits sources

/-- Carry out calls one after another, whether they fail or not. -/
def calls (assembly : Assembly) (cs : List Call) : Assembly :=
  cs.foldl (fun current c => (current.call c).1) assembly

/-- What is seen of calls: the error of each, and the warnings after it. -/
def log (assembly : Assembly) : List Call → List (Option BuildError × List Warning)
  | [] => []
  | c :: cs => ((assembly.call c).2, (assembly.call c).1.warnings) :: (assembly.call c).1.log cs

/-- The assembly that calls lead to from the start of a build. -/
def afterCalls (settings : Settings) (cs : List Call) : Assembly :=
  ({ settings := settings } : Assembly).calls cs

/-- A call absorbs what its units extract to, one after the other, until one fails. -/
theorem call_eq_absorbAll (assembly : Assembly) (c : Call) :
    assembly.call c = assembly.absorbAll c.extractions := by
  cases c with
  | addUnit source => rfl
  | addUnits sources => rfl

/-! ## Trees of assemblies -/

section Growth

variable {assembly : Assembly} {ds : List Declaration}

/-- An assembly still follows the same declarations after absorbing more. -/
theorem follows_absorbAll (h : assembly.tree.Follows ds)
    (extractions : List (Except BuildError Extraction)) :
    (assembly.absorbAll extractions).1.tree.Follows ds := by
  induction extractions generalizing assembly with
  | nil => exact h
  | cons extraction extractions ih =>
    cases extraction with
    | error e => exact h
    | ok extraction =>
      have hnext : (assembly.absorb extraction).1.tree.Follows ds := h.grow extraction.declarations
      rw [absorbAll]
      cases habsorb : assembly.absorb extraction with
      | mk next error =>
        rw [habsorb] at hnext
        cases error with
        | none => exact ih hnext
        | some error => exact hnext

/-- An assembly still follows the same declarations after one more call. -/
theorem follows_call (h : assembly.tree.Follows ds) (c : Call) : (assembly.call c).1.tree.Follows ds := by
  rw [call_eq_absorbAll]
  exact follows_absorbAll h c.extractions

/-- An assembly still follows the same declarations after any number of calls. -/
theorem follows_calls (h : assembly.tree.Follows ds) (cs : List Call) :
    (assembly.calls cs).tree.Follows ds := by
  induction cs generalizing assembly with
  | nil => exact h
  | cons c cs ih => exact ih (follows_call h c)

/-- Calls from the start of a build lead to trees in closed form. -/
theorem exists_tree_afterCalls (settings : Settings) (cs : List Call) :
    ∃ ds, (afterCalls settings cs).tree = .ofDeclarations ds := by
  have hstart : ({ settings := settings } : Assembly).tree.Follows [] := CommandTree.follows_ofDeclarations []
  rcases follows_calls hstart cs with ⟨ds, hds⟩
  exact ⟨ds, hds⟩

end Growth

/-! ## Notes do not change calls -/

/-- An assembly with the package of a declaration noted at its command. -/
def noting (assembly : Assembly) (d : Declaration) : Assembly :=
  { assembly with tree := assembly.tree.noting d }

section Notes

variable {assembly : Assembly} {ds : List Declaration} {d : Declaration}

/-- Noting the package of a refused declaration and absorbing a unit can be done in either order. -/
theorem absorb_noting (htaken : d.place ∈ ds.map Declaration.place) (h : assembly.tree.Follows ds)
    (extraction : Extraction) :
    (assembly.noting d).absorb extraction
      = ((assembly.absorb extraction).1.noting d, (assembly.absorb extraction).2) := by
  rcases h with ⟨more, hmore⟩
  have htree : (assembly.noting d).tree = assembly.tree.noting d := rfl
  have hnoting : (assembly.tree.noting d).insertAll extraction.declarations
      = ((assembly.tree.insertAll extraction.declarations).1.noting d,
          (assembly.tree.insertAll extraction.declarations).2) := by
    rw [hmore]
    apply CommandTree.insertAll_noting
    rw [List.map_append]
    exact List.mem_append_left _ htaken
  rw [absorb, htree, hnoting]
  rfl

/-- Noting the package of a refused declaration and absorbing several units can be done in either order, with the
same error. -/
theorem absorbAll_noting (htaken : d.place ∈ ds.map Declaration.place) (h : assembly.tree.Follows ds)
    (extractions : List (Except BuildError Extraction)) :
    (assembly.noting d).absorbAll extractions
      = ((assembly.absorbAll extractions).1.noting d, (assembly.absorbAll extractions).2) := by
  induction extractions generalizing assembly with
  | nil => rfl
  | cons extraction extractions ih =>
    cases extraction with
    | error e => rfl
    | ok extraction =>
      have hnext : (assembly.absorb extraction).1.tree.Follows ds := h.grow extraction.declarations
      rw [absorbAll, absorbAll, absorb_noting htaken h]
      cases habsorb : assembly.absorb extraction with
      | mk next error =>
        rw [habsorb] at hnext
        cases error with
        | none => exact ih hnext
        | some error => rfl

/-- Noting the package of a refused declaration and a whole call can be done in either order. -/
theorem call_noting (htaken : d.place ∈ ds.map Declaration.place) (h : assembly.tree.Follows ds) (c : Call) :
    (assembly.noting d).call c = ((assembly.call c).1.noting d, (assembly.call c).2) := by
  rw [call_eq_absorbAll, call_eq_absorbAll, absorbAll_noting htaken h]

/-- A note does not change what is seen of calls. -/
theorem log_noting (htaken : d.place ∈ ds.map Declaration.place) (h : assembly.tree.Follows ds)
    (cs : List Call) : (assembly.noting d).log cs = assembly.log cs := by
  induction cs generalizing assembly with
  | nil => rfl
  | cons c cs ih =>
    rw [log, log, call_noting htaken h]
    exact congrArg (List.cons _) (ih (follows_call h c))

/-- A note stays what it is when calls are carried out. -/
theorem calls_noting (htaken : d.place ∈ ds.map Declaration.place) (h : assembly.tree.Follows ds)
    (cs : List Call) : (assembly.noting d).calls cs = (assembly.calls cs).noting d := by
  induction cs generalizing assembly with
  | nil => rfl
  | cons c cs ih =>
    have hstep : (assembly.noting d).calls (c :: cs) = ((assembly.call c).1.noting d).calls cs := by
      rw [calls, List.foldl_cons, call_noting htaken h, calls]
    rw [hstep, ih (follows_call h c)]
    rfl

end Notes

end Assembly

/-! ## Notes at the end of a build -/

/-- The same faults are found in commands that are changed without a change to their faults. -/
theorem commandFaults_map {change : Command → Command} (hname : ∀ command, (change command).name = command.name)
    (hfaults : ∀ command, (change command).faults = command.faults) (seen : List String)
    (commands : List Command) : commandFaults seen (commands.map change) = commandFaults seen commands := by
  induction commands generalizing seen with
  | nil => rfl
  | cons command commands ih => rw [List.map_cons, commandFaults, commandFaults, hname, hfaults, ih, ih]

namespace Command

variable (command : Command) (package : String)

/-- The validator does not look at the package of a command. -/
theorem faults_noting : (command.noting package).faults = command.faults := by
  rw [noting]
  split
  · rfl
  · rw [withPackage_eq_recast, faults_recast]

/-- A noted package leaves the name of the command. -/
@[simp]
theorem name_noting : (command.noting package).name = command.name := by
  rw [noting]
  split
  · rfl
  · rfl

/-- A noted package leaves the function of the command. -/
@[simp]
theorem function_noting : (command.noting package).function = command.function := by
  rw [noting]
  split
  · rfl
  · rfl

/-- A note does not show in a command without its package. -/
theorem withPackage_noting (other : Option String) :
    (command.noting package).withPackage other = command.withPackage other := by
  rw [noting]
  split
  · rfl
  · rfl

end Command

/-- The summary of a command shows the package it was given. -/
theorem CommandSummary.ofCommand_withPackage (command : Command) (package : Option String) :
    ofCommand (command.withPackage package) = { ofCommand command with package := package } :=
  rfl

namespace Model

variable (model : Model) (d : Declaration)

/-- The faults of a model are the same after a package is noted. -/
theorem faults_noting : (model.noting d).faults = model.faults := by
  refine commandFaults_map (fun command => ?_) (fun command => ?_) [] model.commands
  · split
    · simp
    · rfl
  · split
    · exact command.faults_noting _
    · rfl

/-- Whether a model has a command of this name without a function. -/
def leavesOpen (name : String) : Bool :=
  model.commands.any fun command => command.name == name && command.function.isNone

/-- Noting a package gives no command a function. -/
theorem leavesOpen_noting (name : String) : (model.noting d).leavesOpen name = model.leavesOpen name := by
  rw [leavesOpen, leavesOpen, noting, List.any_map]
  congr 1
  funext command
  rw [Function.comp_apply]
  split
  · simp
  · rfl

/-- Where the command has a function, a note changes nothing. -/
theorem noting_eq_self (h : model.leavesOpen d.command = false) : model.noting d = model := by
  rw [noting_eq_self_iff]
  intro command hcommand hname
  rw [leavesOpen, List.any_eq_false] at h
  left
  simpa [hname] using h command hcommand

end Model

/-- An outcome without the package of a command, if the command has no function. -/
def Outcome.unpackaged (name : String) (outcome : Outcome) : Outcome :=
  if outcome.model.leavesOpen name then
    { model :=
        { outcome.model with
          commands := outcome.model.commands.map fun command =>
            if command.name = name then command.withPackage none else command }
      report :=
        { outcome.report with
          commands := outcome.report.commands.map fun summary =>
            if summary.name = name then { summary with package := none } else summary } }
  else outcome

/-- Forgetting a package and forgetting the warnings can be done in either order. -/
theorem Outcome.withoutWarnings_unpackaged (outcome : Outcome) (name : String) :
    (outcome.unpackaged name).withoutWarnings = outcome.withoutWarnings.map (unpackaged name) := by
  have hwarnings : (outcome.unpackaged name).report.warnings = outcome.report.warnings := by
    rw [unpackaged]
    split
    · rfl
    · rfl
  rw [withoutWarnings, withoutWarnings, hwarnings]
  split
  · rfl
  · rfl

namespace Assembly

variable (assembly : Assembly) (d : Declaration)

/-- A note at a command does not show in an outcome without the package of this command. -/
theorem unpackaged_outcome_noting (model : Model) :
    ((assembly.noting d).outcome (model.noting d)).unpackaged d.command
      = (assembly.outcome model).unpackaged d.command := by
  have hsize : (assembly.noting d).tree.size = assembly.tree.size := assembly.tree.size_noting d
  have hwarnings : (assembly.noting d).warnings = assembly.warnings := rfl
  rw [outcome, outcome, hsize, hwarnings, Outcome.unpackaged, Outcome.unpackaged, Model.leavesOpen_noting]
  cases hopen : model.leavesOpen d.command with
  | false => rw [model.noting_eq_self d hopen]
  | true =>
    have hcommands : ((model.noting d).commands.map fun command =>
          if command.name = d.command then command.withPackage none else command)
        = model.commands.map fun command =>
            if command.name = d.command then command.withPackage none else command := by
      rw [Model.noting, List.map_map]
      refine List.map_congr_left fun command _ => ?_
      rw [Function.comp_apply]
      by_cases hname : command.name = d.command
      · simp [hname, Command.withPackage_noting]
      · simp [hname]
    have hsummaries : ∀ commands : List Command,
        ((commands.map CommandSummary.ofCommand).map fun summary =>
          if summary.name = d.command then { summary with package := none } else summary)
        = (commands.map fun command =>
            if command.name = d.command then command.withPackage none else command).map
              CommandSummary.ofCommand := by
      intro commands
      rw [List.map_map, List.map_map]
      refine List.map_congr_left fun command _ => ?_
      rw [Function.comp_apply, Function.comp_apply, apply_ite CommandSummary.ofCommand,
        CommandSummary.ofCommand_withPackage]
      rfl
    simp only [Report.ofModel, hsummaries, hcommands, if_true]
    rfl

/-- A note does not change the end of a build, but for the package of a command without a function. -/
theorem finish_noting :
    (assembly.noting d).finish.map (Outcome.unpackaged d.command)
      = assembly.finish.map (Outcome.unpackaged d.command) := by
  have hflatten : (assembly.noting d).tree.flatten (assembly.noting d).settings.reservedNames
      = (assembly.tree.flatten assembly.settings.reservedNames).map (·.noting d) :=
    assembly.tree.flatten_noting d assembly.settings.reservedNames
  have hstrict : (assembly.noting d).settings.strict = assembly.settings.strict := rfl
  rw [finish_eq, finish_eq, hflatten, hstrict]
  cases assembly.tree.flatten assembly.settings.reservedNames with
  | error e => rfl
  | ok model =>
    have hend : ∀ outcome : Outcome,
        (if assembly.settings.strict then outcome.withoutWarnings else .ok outcome).map
            (Outcome.unpackaged d.command)
          = if assembly.settings.strict then (outcome.unpackaged d.command).withoutWarnings
            else .ok (outcome.unpackaged d.command) := by
      intro outcome
      rw [Outcome.withoutWarnings_unpackaged]
      split
      · rfl
      · rfl
    change (((model.noting d).checked.map (assembly.noting d).outcome) >>= _).map _
      = ((model.checked.map assembly.outcome) >>= _).map _
    rw [Model.checked, Model.checked, Model.faults_noting]
    split
    · change (if assembly.settings.strict then ((assembly.noting d).outcome (model.noting d)).withoutWarnings
          else .ok ((assembly.noting d).outcome (model.noting d))).map _
        = (if assembly.settings.strict then (assembly.outcome model).withoutWarnings
          else .ok (assembly.outcome model)).map _
      rw [hend, hend, unpackaged_outcome_noting]
    · rfl

end Assembly

/-! ## Failed calls -/

/-- A function with a parameter of a type that is not supported. -/
def sampleUnreadable : SourceFunction where
  name := "Run"
  doc := "Run is a subcommand \x60app\x60 that runs"
  parameters := [{ name := "table", typeText := "map[string]int" }]

namespace Assembly

/-- Adding a unit that extracts is absorbing what it extracts to. -/
theorem addUnit_of_extract {source : SourceUnit} {extraction : Extraction}
    (h : source.extract = .ok extraction) (assembly : Assembly) :
    assembly.addUnit source = assembly.absorb extraction := by
  rw [addUnit, h, absorbAll]
  cases assembly.absorb extraction with
  | mk next error =>
    cases error with
    | none => rfl
    | some error => rfl

/-- A unit that is refused leaves what its declarations in front of the refused one would have left, and a
note. -/
theorem absorb_eq_some {assembly next : Assembly} {ds : List Declaration}
    (htree : assembly.tree = .ofDeclarations ds) {extraction : Extraction} {error : BuildError}
    (h : assembly.absorb extraction = (next, some error)) :
    ∃ accepted d rest kept, extraction.declarations = accepted ++ d :: rest ∧
      (∃ existing : Declaration, existing.place = d.place ∧ error = CommandTree.duplicate existing d) ∧
      assembly.absorb ⟨accepted, extraction.warnings⟩ = (kept, none) ∧ next = kept.noting d ∧
      ∃ offered, d.place ∈ offered.map Declaration.place ∧ kept.tree.Follows offered := by
  unfold absorb at h ⊢
  rw [htree] at h ⊢
  cases hinsert : (CommandTree.ofDeclarations ds).insertAll extraction.declarations with
  | mk tree refused =>
    rw [hinsert, Prod.mk.injEq] at h
    rcases h with ⟨hnext, rfl⟩
    rcases CommandTree.insertAll_ofDeclarations_eq_some hinsert with
      ⟨accepted, d, rest, hsplit, haccepted, ⟨existing, hmem, hplace, herror⟩, hgrown⟩
    have htaken : d.place ∈ (ds ++ accepted).map Declaration.place :=
      List.mem_map.mpr ⟨existing, hmem, hplace⟩
    have hnoted : tree = (CommandTree.ofDeclarations (ds ++ accepted)).noting d := by
      rw [hgrown, CommandTree.ofDeclarations_taken htaken, List.append_nil]
    refine ⟨accepted, d, rest, { assembly with
        tree := .ofDeclarations (ds ++ accepted), warnings := assembly.warnings ++ extraction.warnings },
      hsplit, ⟨existing, hplace, herror⟩, by rw [haccepted], ?_, ds ++ accepted, htaken,
      CommandTree.follows_ofDeclarations _⟩
    rw [← hnext, hnoted]
    rfl

/-- A unit that fails leaves nothing behind if it cannot be read.  Otherwise one of its declarations is at a
place that is taken, and the unit leaves all its warnings and the declarations in front of that one: whatever
calls follow, the same is seen of them, and the build ends in the same way, as if just these had been added, but
for the package of the command of the refused declaration if it has no function. -/
theorem addUnit_failed (settings : Settings) (before : List Call) {source : SourceUnit} {error : BuildError}
    (h : ((afterCalls settings before).addUnit source).2 = some error) :
    source.extract = .error error ∧
        ((afterCalls settings before).addUnit source).1 = afterCalls settings before ∨
      ∃ accepted d rest warnings kept, source.extract = .ok ⟨accepted ++ d :: rest, warnings⟩ ∧
        (∃ existing : Declaration, existing.place = d.place ∧ error = CommandTree.duplicate existing d) ∧
        (afterCalls settings before).absorb ⟨accepted, warnings⟩ = (kept, none) ∧
        ((afterCalls settings before).addUnit source).1.warnings = kept.warnings ∧
        ∀ later, ((afterCalls settings before).addUnit source).1.log later = kept.log later ∧
          (((afterCalls settings before).addUnit source).1.calls later).finish.map
              (Outcome.unpackaged d.command)
            = (kept.calls later).finish.map (Outcome.unpackaged d.command) := by
  rcases exists_tree_afterCalls settings before with ⟨ds, htree⟩
  cases hextract : source.extract with
  | error e =>
    have hadd : (afterCalls settings before).addUnit source = (afterCalls settings before, some e) := by
      rw [addUnit, hextract, absorbAll]
    rw [hadd] at h ⊢
    exact Or.inl ⟨congrArg Except.error (Option.some.inj h), rfl⟩
  | ok extraction =>
    right
    rw [addUnit_of_extract hextract] at h ⊢
    have habsorb : (afterCalls settings before).absorb extraction
        = (((afterCalls settings before).absorb extraction).1, some error) := Prod.ext rfl h
    rcases absorb_eq_some htree habsorb with
      ⟨accepted, d, rest, kept, hsplit, hexisting, hkept, hnext, offered, htaken, hfollows⟩
    refine ⟨accepted, d, rest, extraction.warnings, kept, by rw [← hsplit], hexisting, hkept, ?_, ?_⟩
    · rw [hnext]
      rfl
    · intro later
      rw [hnext, log_noting htaken hfollows, calls_noting htaken hfollows, finish_noting]
      exact ⟨rfl, rfl⟩

/-- A file with its function listed again behind another one. -/
def sampleAgain : SourceUnit :=
  sampleMain.holding [sampleList, sampleRun]

/-- A file with a parameter that cannot be read leaves nothing behind.  A file with a function listed again fails
as well, and the build goes on from its one warning. -/
theorem addUnit_failed_sampleAgain :
    (((afterCalls {} [.addUnit sampleRemote]).addUnit (sampleMain.holding [sampleUnreadable])).2
        = some (.unsupportedParameterType "Run" "table" "map[string]int") ∧
      ((afterCalls {} [.addUnit sampleRemote]).addUnit (sampleMain.holding [sampleUnreadable])).1
        = afterCalls {} [.addUnit sampleRemote]) ∧
      ((afterCalls {} [.addUnits [sampleMain.holding [sampleRun]]]).addUnit sampleAgain).2
        = some (.duplicateDefinition "app" "example.com/app.Run (main.go)" "example.com/app.Run (main.go)") ∧
      ∃ (d : Declaration) (kept : Assembly), d.label = "app" ∧ kept.warnings.length = 1 ∧
        (((afterCalls {} [.addUnits [sampleMain.holding [sampleRun]]]).addUnit sampleAgain).1.calls
            [.addUnit sampleRemote]).finish.map (Outcome.unpackaged d.command)
          = (kept.calls [.addUnit sampleRemote]).finish.map (Outcome.unpackaged d.command) := by
  have hunreadable : ((afterCalls {} [.addUnit sampleRemote]).addUnit
      (sampleMain.holding [sampleUnreadable])).2
        = some (.unsupportedParameterType "Run" "table" "map[string]int") := by
    decide +kernel
  have hagain : ((afterCalls {} [.addUnits [sampleMain.holding [sampleRun]]]).addUnit sampleAgain).2
      = some (.duplicateDefinition "app" "example.com/app.Run (main.go)" "example.com/app.Run (main.go)") := by
    decide +kernel
  have hwarnings : ((afterCalls {} [.addUnits [sampleMain.holding [sampleRun]]]).addUnit
      sampleAgain).1.warnings.length = 1 := by
    decide +kernel
  refine ⟨⟨hunreadable, ?_⟩, hagain, ?_⟩
  · rcases addUnit_failed {} [.addUnit sampleRemote] hunreadable with
      ⟨-, hsame⟩ | ⟨_, _, _, _, _, -, ⟨_, -, herror⟩, -⟩
    · exact hsame
    · simp [CommandTree.duplicate] at herror
  · rcases addUnit_failed {} [.addUnits [sampleMain.holding [sampleRun]]] hagain with
      ⟨hextract, -⟩ | ⟨_, d, _, _, kept, -, ⟨_, -, herror⟩, -, hkept, hlater⟩
    · have hok : sampleAgain.extract.isOk = true := by decide +kernel
      rw [hextract] at hok
      simp [Except.isOk, Except.toBool] at hok
    · simp only [CommandTree.duplicate, BuildError.duplicateDefinition.injEq] at herror
      exact ⟨d, kept, herror.1.symm, by rw [← hkept, hwarnings], (hlater _).2⟩

/-- A file with a function listed again leaves its warning, and the subcommand in front of that function. -/
theorem addUnit_sampleAgain_ne :
    ((afterCalls {} [.addUnit (sampleMain.holding [sampleRun])]).addUnit sampleAgain).2
        = some (.duplicateDefinition "app" "example.com/app.Run (main.go)" "example.com/app.Run (main.go)") ∧
      ((afterCalls {} [.addUnit (sampleMain.holding [sampleRun])]).addUnit sampleAgain).1.warnings
        ≠ (afterCalls {} [.addUnit (sampleMain.holding [sampleRun])]).warnings ∧
      ((afterCalls {} [.addUnit (sampleMain.holding [sampleRun])]).addUnit sampleAgain).1.finish
        ≠ (afterCalls {} [.addUnit (sampleMain.holding [sampleRun])]).finish := by
  have hfailed : ((afterCalls {} [.addUnit (sampleMain.holding [sampleRun])]).addUnit
      sampleAgain).1.finish.map (·.report.declarations) = .ok 2 := by
    decide +kernel
  have hbefore : (afterCalls {} [.addUnit (sampleMain.holding [sampleRun])]).finish.map
      (·.report.declarations) = .ok 1 := by
    decide +kernel
  refine ⟨by decide +kernel, by decide +kernel, fun hsame => ?_⟩
  rw [hsame, hbefore] at hfailed
  simp at hfailed

end Assembly

end CommandDoc
