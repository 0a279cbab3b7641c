import CommandDoc.Proofs.Build.Rearrangement
import CommandDoc.Proofs.Model.Validation
import CommandDoc.Proofs.Tree.Row

/-!
# Independence of programs

Sources that declare different commands can be built together or apart.  Together they give the commands of
both, each as it is built apart, in the order of their names; the declarations are counted together, and the
warnings are merged.

Main definitions:

- `Outcome.alongside`: two outcomes put together.

Main results:

- Theorem `CommandTree.ofDeclarations_append`: declarations of different commands grow separate branches.
- Theorem `CommandTree.flatten_alongside`: merged trees are flattened into merged models.
- Theorem `build_alongside`: sources of different commands are built together as they are built apart.
-/

namespace CommandDoc

/-! ## Merged commands -/

/-- Whether a command can stand before another in a model. -/
def Command.nameLe (command other : Command) : Bool :=
  Ordered.notAfter Ordered.stringBefore command.name other.name

/-- Whether the count of a command can stand before another one in a report. -/
def CommandSummary.nameLe (summary other : CommandSummary) : Bool :=
  Ordered.notAfter Ordered.stringBefore summary.name other.name

/-- The commands of two models in one. -/
def Model.alongside (model other : Model) : Model :=
  { model with commands := model.commands.merge other.commands Command.nameLe }

/-- Two reports in one: declarations are counted together, and the rest is merged. -/
def Report.alongside (report other : Report) : Report :=
  { report with
    declarations := report.declarations + other.declarations
    commands := report.commands.merge other.commands CommandSummary.nameLe
    warnings := report.warnings.merge other.warnings Warning.le }

/-- Two outcomes put together. -/
def Outcome.alongside (outcome other : Outcome) : Outcome :=
  ⟨outcome.model.alongside other.model, outcome.report.alongside other.report⟩

theorem Report.ofModel_alongside (model other : Model) (declarations others : Nat) (ws vs : List Warning) :
    ofModel (model.alongside other) (declarations + others) (ws.merge vs Warning.le)
      = (ofModel model declarations ws).alongside (ofModel other others vs) := by
  have hcommands : (model.commands.merge other.commands Command.nameLe).map CommandSummary.ofCommand
      = (model.commands.map CommandSummary.ofCommand).merge (other.commands.map CommandSummary.ofCommand)
          CommandSummary.nameLe :=
    List.map_merge fun _ _ _ _ => rfl
  rw [alongside, ofModel, Model.alongside, hcommands]
  rfl

/-- Models without faults can be merged if no name is in both. -/
theorem Model.faults_alongside {model other : Model} (hmodel : model.faults = []) (hother : other.faults = [])
    (hapart : ∀ name ∈ model.commandNames, name ∉ other.commandNames) :
    (model.alongside other).faults = [] := by
  obtain ⟨hnames, hcommands⟩ := faults_eq_nil_iff.mp hmodel
  obtain ⟨hnames', hcommands'⟩ := faults_eq_nil_iff.mp hother
  have hperm : (model.alongside other).commandNames.Perm (model.commandNames ++ other.commandNames) := by
    rw [commandNames, commandNames, commandNames, ← List.map_append]
    exact (List.merge_perm_append _).map _
  refine faults_eq_nil_iff.mpr ⟨?_, ?_⟩
  · rw [hperm.nodup_iff, List.nodup_append]
    refine ⟨hnames, hnames', ?_⟩
    rintro name hname _ hname' rfl
    exact hapart name hname hname'
  · intro command hcommand
    rcases List.mem_merge.mp hcommand with hcommand | hcommand
    · exact hcommands command hcommand
    · exact hcommands' command hcommand

/-! ## Merged trees -/

namespace CommandTree

/-- Whether a command of a tree can stand before another. -/
def nameLe (entry other : String × Branch) : Bool :=
  Ordered.notAfter Ordered.stringBefore entry.1 other.1

/-- The commands of two trees in one. -/
def alongside (tree other : CommandTree) : CommandTree where
  commands := tree.commands.merge other.commands nameLe

/-- Declarations of different commands grow separate branches of a tree. -/
theorem ofDeclarations_append {ds es : List Declaration}
    (hapart : ∀ d ∈ ds, ∀ e ∈ es, d.command ≠ e.command) :
    ofDeclarations (ds ++ es) = (ofDeclarations ds).alongside (ofDeclarations es) := by
  have hnames : Ordered.sortStrings ((ds ++ es).map (·.command))
      = (Ordered.sortStrings (ds.map (·.command))).merge (Ordered.sortStrings (es.map (·.command)))
          (Ordered.notAfter Ordered.stringBefore) := by
    rw [List.map_append]
    apply Ordered.sortDistinct_append Ordered.stringBefore_strictOrder
    intro name hname hname'
    obtain ⟨d, hd, rfl⟩ := List.mem_map.mp hname
    obtain ⟨e, he, hcommand⟩ := List.mem_map.mp hname'
    exact hapart d hd e he hcommand.symm
  have hleft : ∀ name ∈ Ordered.sortStrings (ds.map (·.command)),
      (name, Branch.ofDeclarations (declarationsOf (ds ++ es) name))
        = (name, Branch.ofDeclarations (declarationsOf ds name)) := by
    intro name hname
    obtain ⟨d, hd, rfl⟩ := List.mem_map.mp
      ((Ordered.mem_sortDistinct Ordered.stringBefore_strictOrder).mp hname)
    rw [declarationsOf_append, declarationsOf_eq_nil fun e he => (hapart d hd e he).symm, List.append_nil]
  have hright : ∀ name ∈ Ordered.sortStrings (es.map (·.command)),
      (name, Branch.ofDeclarations (declarationsOf (ds ++ es) name))
        = (name, Branch.ofDeclarations (declarationsOf es name)) := by
    intro name hname
    obtain ⟨e, he, rfl⟩ := List.mem_map.mp
      ((Ordered.mem_sortDistinct Ordered.stringBefore_strictOrder).mp hname)
    rw [declarationsOf_append, declarationsOf_eq_nil fun d hd => hapart d hd e he, List.nil_append]
  have hcommands : (ofDeclarations (ds ++ es)).commands
      = (ofDeclarations ds).commands.merge (ofDeclarations es).commands nameLe := by
    have hmerge : ((Ordered.sortStrings (ds.map (·.command))).merge (Ordered.sortStrings (es.map (·.command)))
          (Ordered.notAfter Ordered.stringBefore)).map
            (fun name => (name, Branch.ofDeclarations (declarationsOf (ds ++ es) name)))
        = List.merge _ _ nameLe :=
      List.map_merge fun _ _ _ _ => rfl
    rw [ofDeclarations, hnames, hmerge, List.map_congr_left hleft, List.map_congr_left hright]
    rfl
  exact congrArg CommandTree.mk hcommands

theorem size_alongside (tree other : CommandTree) :
    (tree.alongside other).size = tree.size + other.size := by
  have hperm : (tree.alongside other).declarations.Perm (tree.declarations ++ other.declarations) := by
    rw [declarations, declarations, declarations, ← List.flatMap_append]
    exact (List.merge_perm_append _).flatMap_right _
  rw [size, hperm.length_eq, List.length_append]
  rfl

/-- Merged trees are flattened into merged models. -/
theorem flatten_alongside {tree other : CommandTree} {reserved : List String} {model model' : Model}
    (h : tree.flatten reserved = .ok model) (h' : other.flatten reserved = .ok model') :
    (tree.alongside other).flatten reserved = .ok (model.alongside model') := by
  obtain ⟨commands, hcommands, hmodel⟩ := bind_eq_ok_iff.mp h
  obtain ⟨commands', hcommands', hmodel'⟩ := bind_eq_ok_iff.mp h'
  cases hmodel
  cases hmodel'
  -- A command is compared by the name that its branch has in the tree.
  have hcompare : ∀ (entry other : String × Branch) (command command' : Command),
      Branch.flatten entry.2 entry.1 reserved = .ok command →
      Branch.flatten other.2 other.1 reserved = .ok command' →
        nameLe entry other = command.nameLe command' := by
    intro entry other command command' hentry hother
    rw [nameLe, Command.nameLe, Branch.name_of_flatten hentry, Branch.name_of_flatten hother]
  have hmerged := mapM_eq_ok_iff.mpr
    (forall₂_merge hcompare (mapM_eq_ok_iff.mp hcommands) (mapM_eq_ok_iff.mp hcommands'))
  rw [flatten, alongside, hmerged]
  rfl

theorem mem_commandNames_of_flatten {ds : List Declaration} {reserved : List String} {model : Model}
    (h : (ofDeclarations ds).flatten reserved = .ok model) {name : String} :
    name ∈ model.commandNames ↔ ∃ d ∈ ds, d.command = name := by
  rw [Model.commandNames, map_name_of_flatten h, map_fst_commands_ofDeclarations, Ordered.sortStrings,
    Ordered.mem_sortDistinct Ordered.stringBefore_strictOrder, List.mem_map]

theorem pairwise_commandNames_of_flatten {ds : List Declaration} {reserved : List String} {model : Model}
    (h : (ofDeclarations ds).flatten reserved = .ok model) : model.commandNames.Pairwise (· < ·) := by
  rw [Model.commandNames, map_name_of_flatten h, map_fst_commands_ofDeclarations]
  exact (Ordered.pairwise_sortDistinct Ordered.stringBefore_strictOrder _).imp of_decide_eq_true

end CommandTree

/-! ## Builds of different commands -/

section

variable {us vs : List SourceUnit} {settings : Settings} {outcome outcome' : Outcome}

theorem Assembly.ofUnits_append (settings : Settings)
    (hapart : ∀ d ∈ (functionUnits us).flatMap (·.yield.declarations),
      ∀ e ∈ (functionUnits vs).flatMap (·.yield.declarations), d.command ≠ e.command) :
    Assembly.ofUnits (us ++ vs) settings =
      { settings := settings
        tree := (Assembly.ofUnits us settings).tree.alongside (Assembly.ofUnits vs settings).tree
        warnings := (Assembly.ofUnits us settings).warnings ++ (Assembly.ofUnits vs settings).warnings } := by
  rw [ofUnits, functionUnits_append, List.flatMap_append, List.flatMap_append,
    CommandTree.ofDeclarations_append hapart]
  rfl

/-- The end of a build of different commands puts together what the builds of each end with. -/
theorem Assembly.finish_ofUnits_append
    (hapart : ∀ d ∈ (functionUnits us).flatMap (·.yield.declarations),
      ∀ e ∈ (functionUnits vs).flatMap (·.yield.declarations), d.command ≠ e.command)
    (h : (Assembly.ofUnits us settings).finish = .ok outcome)
    (h' : (Assembly.ofUnits vs settings).finish = .ok outcome') :
    (Assembly.ofUnits (us ++ vs) settings).finish = .ok (outcome.alongside outcome') := by
  obtain ⟨model, hflatten, hfaults, hstrict, rfl⟩ := finish_eq_ok_iff.mp h
  obtain ⟨model', hflatten', hfaults', hstrict', rfl⟩ := finish_eq_ok_iff.mp h'
  rw [ofUnits_append settings hapart]
  refine finish_eq_ok_iff.mpr ⟨model.alongside model', ?_, ?_, ?_, ?_⟩
  · exact CommandTree.flatten_alongside hflatten hflatten'
  · refine Model.faults_alongside hfaults hfaults' ?_
    intro name hname hname'
    obtain ⟨d, hd, rfl⟩ := (CommandTree.mem_commandNames_of_flatten hflatten).mp hname
    obtain ⟨e, he, hcommand⟩ := (CommandTree.mem_commandNames_of_flatten hflatten').mp hname'
    exact hapart d hd e he hcommand.symm
  · intro hall
    rw [Warning.sort_append, hstrict hall, hstrict' hall, List.nil_merge]
  · rw [Warning.sort_append, CommandTree.size_alongside, Report.ofModel_alongside]
    rfl

/-- A build of different commands puts together what the builds of each end with. -/
theorem build_append
    (hapart : ∀ d ∈ us.flatMap (·.yield.declarations), ∀ e ∈ vs.flatMap (·.yield.declarations),
      d.command ≠ e.command)
    (h : build us settings = .ok outcome) (h' : build vs settings = .ok outcome') :
    build (us ++ vs) settings = .ok (outcome.alongside outcome') := by
  obtain ⟨hparts, hnodup, hfinish⟩ := build_eq_ok_iff.mp h
  obtain ⟨hparts', hnodup', hfinish'⟩ := build_eq_ok_iff.mp h'
  rw [← declarations_functionUnits hparts, ← declarations_functionUnits hparts'] at hapart
  refine build_eq_ok_iff.mpr ⟨?_, ?_, Assembly.finish_ofUnits_append hapart hfinish hfinish'⟩
  · rw [functionUnits_append]
    exact List.forall_mem_append.mpr ⟨hparts, hparts'⟩
  · rw [functionUnits_append, List.flatMap_append, List.map_append, List.nodup_append]
    refine ⟨hnodup, hnodup', ?_⟩
    intro place hplace place' hplace' hsame
    obtain ⟨d, hd, rfl⟩ := List.mem_map.mp hplace
    obtain ⟨e, he, rfl⟩ := List.mem_map.mp hplace'
    exact hapart d hd e he (Prod.mk.inj hsame).1

end

/-- If two lists of units declare different commands and both can be built, then they can be built together in
any order, however their units follow each other.  The model has the commands of both as they are, in
ascending order of their names; the declarations are counted together, and the sorted warnings are merged. -/
theorem build_alongside {us vs units : List SourceUnit} {settings : Settings} {outcome outcome' : Outcome}
    (hapart : ∀ d ∈ us.flatMap (·.yield.declarations), ∀ e ∈ vs.flatMap (·.yield.declarations),
      d.command ≠ e.command)
    (h : build us settings = .ok outcome) (h' : build vs settings = .ok outcome')
    (hunits : units.Perm (us ++ vs)) :
    build units settings = .ok (outcome.alongside outcome') ∧
      (outcome.alongside outcome').model.commandNames.Pairwise (· < ·) ∧
        (outcome.alongside outcome').report.warnings.Pairwise (Warning.le · ·) := by
  have hbuild : build units settings = .ok (outcome.alongside outcome') :=
    build_eq_ok_of_perm (hunits.symm.flatMap_right _) (build_append hapart h h')
  obtain ⟨-, -, hfinish⟩ := build_eq_ok_iff.mp hbuild
  obtain ⟨model, hflatten, -, -, houtcome⟩ := Assembly.finish_eq_ok_iff.mp hfinish
  refine ⟨hbuild, ?_, ?_⟩
  · rw [houtcome]
    exact CommandTree.pairwise_commandNames_of_flatten hflatten
  · rw [houtcome]
    exact Warning.pairwise_sort _

/-- The function behind a subcommand of another command, of the same name as that behind the sample
subcommand. -/
def sampleZipList : SourceFunction where
  name := "List"
  doc := "List is a subcommand \x60zip list\x60"

/-- The source file of another command. -/
def sampleTool : SourceUnit where
  package := "example.com/zip"
  file := "zip.go"
  functions := [sampleZipList]

/-- Between the two files of a command stands that of another one: the subcommands of both get the name that
they get apart, and there is one warning about each. -/
theorem build_alongside_sampleTool :
    (∀ d ∈ [sampleMain.holding [sampleRun], sampleMain.holding [sampleList]].flatMap (·.yield.declarations),
      ∀ e ∈ [sampleTool].flatMap (·.yield.declarations), d.command ≠ e.command) ∧
    ∃ outcome outcome',
      build [sampleMain.holding [sampleRun], sampleMain.holding [sampleList]] {} = .ok outcome ∧
        build [sampleTool] {} = .ok outcome' ∧
        build [sampleMain.holding [sampleRun], sampleTool, sampleMain.holding [sampleList]] {}
          = .ok (outcome.alongside outcome') ∧
        outcome.model.commands.map (fun command => (command.name, command.nodes.map (·.structName)))
          = [("app", ["List"])] ∧
        outcome'.model.commands.map (fun command => (command.name, command.nodes.map (·.structName)))
          = [("zip", ["List"])] ∧
        outcome.report.warnings.length = 1 ∧ outcome'.report.warnings.length = 1 := by
  have hapart : ∀ d ∈ [sampleMain.holding [sampleRun], sampleMain.holding [sampleList]].flatMap
        (·.yield.declarations),
      ∀ e ∈ [sampleTool].flatMap (·.yield.declarations), d.command ≠ e.command := by
    decide +kernel
  have hok : (build [sampleMain.holding [sampleRun], sampleMain.holding [sampleList]] {}).map (fun outcome =>
      (outcome.model.commands.map (fun command => (command.name, command.nodes.map (·.structName))),
        outcome.report.warnings.length)) = .ok ([("app", ["List"])], 1) := by
    decide +kernel
  have hok' : (build [sampleTool] {}).map (fun outcome =>
      (outcome.model.commands.map (fun command => (command.name, command.nodes.map (·.structName))),
        outcome.report.warnings.length)) = .ok ([("zip", ["List"])], 1) := by
    decide +kernel
  have hunits : [sampleMain.holding [sampleRun], sampleTool, sampleMain.holding [sampleList]].Perm
      ([sampleMain.holding [sampleRun], sampleMain.holding [sampleList]] ++ [sampleTool]) :=
    (List.Perm.swap _ _ []).cons _
  obtain ⟨outcome, houtcome, hshape⟩ := map_eq_ok_iff.mp hok
  obtain ⟨outcome', houtcome', hshape'⟩ := map_eq_ok_iff.mp hok'
  exact ⟨hapart, outcome, outcome', houtcome, houtcome',
    (build_alongside hapart houtcome houtcome' hunits).1, congrArg Prod.fst hshape,
    congrArg Prod.fst hshape', congrArg Prod.snd hshape, congrArg Prod.snd hshape'⟩

end CommandDoc
