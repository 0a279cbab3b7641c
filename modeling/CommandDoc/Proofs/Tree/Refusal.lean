import Mathlib.Logic.Basic
import CommandDoc.Proofs.Tree.Arena
import CommandDoc.Proofs.Tree.Recast

/-!
# What a refused declaration leaves behind

An insertion notes the package of its function before it finds out whether the place of the declaration is
taken.  A refused declaration leaves this note behind, and nothing else: it shows in the package of a command
that has no function of its own.

Main definitions:

- `CommandTree.noting` and `Model.noting`: a tree and a model with a package noted at one command.

Main results:

- Theorem `CommandTree.insertEach_refused`: after a refused insertion and any further ones, the tree is the
  one without it, but for the note.
- Theorem `CommandTree.flatten_noting`: the note shows in a flattened tree as one in the model.
- Theorem `flatten_refused`: what a refused declaration changes, and when it changes nothing.
-/

namespace CommandDoc

/-! ## Notes in trees -/

/-- A tree with the package of a declaration noted at its command, if the tree has the command. -/
def CommandTree.noting (tree : CommandTree) (d : Declaration) : CommandTree where
  commands := tree.commands.map fun entry =>
    (entry.1, if entry.1 = d.command then entry.2.notePackage d.binding.package else entry.2)

/-- A declaration at a path where one stands before adds only its package to a branch. -/
theorem Branch.ofDeclarations_taken {ds : List Declaration} {d : Declaration}
    (htaken : d.path ∈ ds.map (·.path)) (es : List Declaration) :
    ofDeclarations (ds ++ d :: es) = (ofDeclarations (ds ++ es)).notePackage d.binding.package := by
  obtain ⟨existing, hexisting, hpath⟩ := List.mem_map.mp htaken
  have hfirst : ∀ path, firstAt? (ds ++ d :: es) path = firstAt? (ds ++ es) path := by
    intro path
    rw [firstAt?, firstAt?, List.find?_append, List.find?_append, List.find?_cons]
    cases hd : d.path == path with
    | false => rfl
    | true =>
      -- The declaration that stands before is found first in both lists.
      cases hfound : ds.find? (·.path == path) with
      | some first => rfl
      | none =>
        have hnot := List.find?_eq_none.mp hfound existing hexisting
        rw [hpath, hd] at hnot
        exact absurd rfl hnot
  have hpackages : Ordered.sortStrings ((ds ++ d :: es).map (·.binding.package))
      = Ordered.insertDistinct Ordered.stringBefore d.binding.package
          (Ordered.sortStrings ((ds ++ es).map (·.binding.package))) := by
    rw [Ordered.sortStrings, Ordered.sortStrings,
      Ordered.insertDistinct_sortDistinct Ordered.stringBefore_strictOrder]
    apply Ordered.sortDistinct_eq_of_mem_iff Ordered.stringBefore_strictOrder
    intro package
    simp only [List.map_append, List.map_cons, List.mem_append, List.mem_cons, List.not_mem_nil, or_false]
    tauto
  have hstarts : startsOf (ds ++ d :: es) = startsOf (ds ++ es) := by
    apply Ordered.sortDistinct_eq_of_mem_iff pathBefore_strictOrder
    intro path
    simp only [List.flatMap_append, List.flatMap_cons, List.mem_append]
    constructor
    · rintro (hds | hd | hes)
      · exact Or.inl hds
      · exact Or.inl (List.mem_flatMap.mpr ⟨existing, hexisting, by rw [hpath]; exact hd⟩)
      · exact Or.inr hes
    · rintro (hds | hes)
      · exact Or.inl hds
      · exact Or.inr (Or.inr hes)
  simp only [ofDeclarations, notePackage, hfirst, hpackages, hstarts]

namespace CommandTree

/-- A declaration at a place that is taken before adds only a note to a tree. -/
theorem ofDeclarations_taken {ds : List Declaration} {d : Declaration}
    (htaken : d.place ∈ ds.map Declaration.place) (es : List Declaration) :
    ofDeclarations (ds ++ d :: es) = (ofDeclarations (ds ++ es)).noting d := by
  obtain ⟨existing, hexisting, hplace⟩ := List.mem_map.mp htaken
  obtain ⟨hcommand, hpath⟩ := Prod.mk.inj hplace
  have hnames : Ordered.sortStrings ((ds ++ d :: es).map (·.command))
      = Ordered.sortStrings ((ds ++ es).map (·.command)) := by
    apply Ordered.sortDistinct_eq_of_mem_iff Ordered.stringBefore_strictOrder
    intro name
    have hd : d.command ∈ ds.map (·.command) := List.mem_map.mpr ⟨existing, hexisting, hcommand⟩
    simp only [List.map_append, List.map_cons, List.mem_append, List.mem_cons]
    constructor
    · rintro (hds | rfl | hes)
      · exact Or.inl hds
      · exact Or.inl hd
      · exact Or.inr hes
    · rintro (hds | hes)
      · exact Or.inl hds
      · exact Or.inr (Or.inr hes)
  rw [ofDeclarations, hnames, noting, ofDeclarations, List.map_map]
  congr 1
  apply List.map_congr_left
  intro name _
  by_cases hname : name = d.command
  · have htaken' : d.path ∈ (declarationsOf ds name).map (·.path) := by
      refine List.mem_map.mpr ⟨existing, List.mem_filter.mpr ⟨hexisting, ?_⟩, hpath⟩
      rw [hname, beq_iff_eq]
      exact hcommand
    have hcons : declarationsOf (ds ++ d :: es) name
        = declarationsOf ds name ++ d :: declarationsOf es name := by
      simp [declarationsOf, hname]
    rw [Function.comp_apply, hcons, Branch.ofDeclarations_taken htaken', declarationsOf_append]
    exact congrArg (Prod.mk name) (if_pos hname).symm
  · have hcons : declarationsOf (ds ++ d :: es) name = declarationsOf ds name ++ declarationsOf es name := by
      simp [declarationsOf, Ne.symm hname]
    rw [Function.comp_apply, hcons, declarationsOf_append]
    exact congrArg (Prod.mk name) (if_neg hname).symm

/-- After a refused insertion and any further ones, the tree is the one without it, but for a note. -/
theorem insertEach_refused {ds : List Declaration} {d : Declaration} {error : BuildError}
    (hrefused : ((({} : CommandTree).insertEach ds).insert d).2 = some error) (es : List Declaration) :
    ((({} : CommandTree).insertEach ds).insert d).1.insertEach es
      = ((({} : CommandTree).insertEach ds).insertEach es).noting d := by
  rw [insertEach_empty] at hrefused ⊢
  have htaken : d.place ∈ ds.map Declaration.place := by
    by_contra hnew
    rw [insert_ofDeclarations_eq_none_iff.mpr hnew] at hrefused
    cases hrefused
  rw [insert_ofDeclarations, insertEach_ofDeclarations, insertEach_ofDeclarations, List.append_assoc,
    List.singleton_append, ofDeclarations_taken htaken]

end CommandTree

/-! ## Notes in models -/

/-- The one of two packages that stands first. -/
def earlier (package present : String) : String :=
  if package < present then package else present

namespace Command

/-- A command that is generated for another package. -/
def withPackage (command : Command) (package : Option String) : Command :=
  { command with package := package }

/-- A command with a package noted: without a function of its own it is generated for that package, unless
the one it has stands first. -/
def noting (command : Command) (package : String) : Command :=
  if command.function.isSome then command
  else command.withPackage (some (command.package.elim package (earlier package)))

theorem withPackage_eq_recast (command : Command) (package : Option String) :
    command.withPackage package = command.recast (fun _ => package) id := by
  have hnodes : command.nodes.map (Node.rename id) = command.nodes := List.map_id _
  rw [recast, hnodes]
  rfl

theorem resolve_withPackage (command : Command) (package : Option String) :
    (command.withPackage package).resolve = command.resolve.map (·.withPackage package) := by
  simp only [withPackage_eq_recast, resolve_recast]

theorem inherit_withPackage (command : Command) (package : Option String) :
    (command.withPackage package).inherit = command.inherit.withPackage package := by
  rw [withPackage_eq_recast, withPackage_eq_recast, inherit_recast]

end Command

namespace Branch

variable {branch : Branch} {name : String} {reserved : List String}

theorem row_notePackage (package : String) :
    (branch.notePackage package).row name reserved
      = (branch.row name reserved).withPackage (branch.notePackage package).package? := rfl

theorem head?_insertDistinct (package : String) (packages : List String) :
    (Ordered.insertDistinct Ordered.stringBefore package packages).head?
      = some (packages.head?.elim package (earlier package)) := by
  cases packages with
  | nil => rfl
  | cons first packages =>
    rw [Ordered.insertDistinct, List.head?_cons, Option.elim_some, Ordered.stringBefore, earlier]
    by_cases hlt : package < first
    · rw [if_pos (decide_eq_true hlt), if_pos hlt, List.head?_cons]
    · rw [if_neg (by simpa using hlt), if_neg hlt]
      split
      · rw [List.head?_cons]
      · rw [List.head?_cons]

/-- A note in a branch shows in the flattened command as one. -/
theorem flatten_notePackage (package : String) :
    (branch.notePackage package).flatten name reserved
      = (branch.flatten name reserved).map (·.noting package) := by
  have hnoted : ∀ resolved, (branch.row name reserved).resolve = .ok resolved →
      (resolved.inherit.withPackage (branch.notePackage package).package?)
        = resolved.inherit.noting package := by
    intro resolved hresolved
    obtain ⟨nodes, rfl, -⟩ := Command.resolve_eq_ok hresolved
    cases hroot : branch.root with
    | some root =>
      simp only [Command.noting, Command.inherit, row, hroot, Option.map_some, Option.isSome_some, if_true,
        Command.withPackage, package?, notePackage, Option.some_or]
    | none =>
      simp only [Command.noting, Command.inherit, row, hroot, Option.map_none, Option.isSome_none,
        Bool.false_eq_true, if_false, package?, notePackage, Option.none_or, head?_insertDistinct]
  rw [flatten, flatten, row_notePackage, Command.resolve_withPackage]
  cases hresolved : (branch.row name reserved).resolve with
  | error e => rfl
  | ok resolved =>
    change Except.ok _ = Except.ok _
    rw [Command.inherit_withPackage, hnoted resolved hresolved]

end Branch

/-- A model with the package of a declaration noted at its command, if the model has the command. -/
def Model.noting (model : Model) (d : Declaration) : Model :=
  { model with
    commands := model.commands.map fun command =>
      if command.name = d.command then command.noting d.binding.package else command }

/-- A note in a tree shows in the model as one. -/
theorem CommandTree.flatten_noting (tree : CommandTree) (d : Declaration) (reserved : List String) :
    (tree.noting d).flatten reserved = (tree.flatten reserved).map (·.noting d) := by
  have hstep : ∀ entry ∈ tree.commands,
      (if entry.1 = d.command then entry.2.notePackage d.binding.package else entry.2).flatten entry.1
          reserved
        = (entry.2.flatten entry.1 reserved).map fun command =>
            if command.name = d.command then command.noting d.binding.package else command := by
    intro entry _
    by_cases hname : entry.1 = d.command
    · rw [if_pos hname, Branch.flatten_notePackage]
      cases hflatten : entry.2.flatten entry.1 reserved with
      | error e => rfl
      | ok command =>
        have hnamed : command.name = d.command := (Branch.name_of_flatten hflatten).trans hname
        simp only [Except.map, if_pos hnamed]
    · rw [if_neg hname]
      cases hflatten : entry.2.flatten entry.1 reserved with
      | error e => rfl
      | ok command =>
        have hnamed : command.name ≠ d.command := by
          rw [Branch.name_of_flatten hflatten]
          exact hname
        simp only [Except.map, if_neg hnamed]
  have hcommands := mapM_eq_map hstep
  rw [flatten, flatten, noting, List.mapM_map, Function.comp_def, hcommands]
  cases tree.commands.mapM fun entry => Branch.flatten entry.2 entry.1 reserved with
  | error e => rfl
  | ok commands => rfl

/-! ## Notes that change nothing -/

/-- A note changes nothing in a command with a function, or with a package that stands first. -/
theorem Command.noting_eq_self_iff {command : Command} {package : String} :
    command.noting package = command ↔
      command.function ≠ none ∨ ∃ present, command.package = some present ∧ present ≤ package := by
  unfold noting
  cases hfunction : command.function with
  | some function => simp
  | none =>
    have hpackage : command.withPackage (some (command.package.elim package (earlier package))) = command ↔
        command.package = some (command.package.elim package (earlier package)) := by
      constructor
      · exact fun h => (congrArg Command.package h).symm
      · intro h
        rw [withPackage, ← h]
    rw [Option.isSome_none, if_neg Bool.false_ne_true, hpackage]
    cases command.package with
    | none => simp
    | some present =>
      simp only [Option.elim_some, Option.some.injEq, earlier, ne_eq, not_true_eq_false, false_or,
        exists_eq_left']
      rw [← String.not_lt]
      split
      · next hlt => simpa [hlt] using (String.ne_of_lt hlt).symm
      · next hlt => simp [hlt]

theorem Model.noting_eq_self_iff {model : Model} {d : Declaration} :
    model.noting d = model ↔
      ∀ command ∈ model.commands, command.name = d.command →
        command.function ≠ none ∨
          ∃ present, command.package = some present ∧ present ≤ d.binding.package := by
  have hcommands : model.noting d = model ↔ (model.noting d).commands = model.commands := by
    constructor
    · exact congrArg Model.commands
    · exact fun h => congrArg (Model.mk model.schemaVersion) h
  have hmap : (model.noting d).commands = model.commands ↔ ∀ command ∈ model.commands,
      (if command.name = d.command then command.noting d.binding.package else command) = command := by
    conv_lhs => rw [← List.map_id model.commands]
    exact List.map_inj_left
  rw [hcommands, hmap]
  refine forall₂_congr fun command _ => ?_
  by_cases hname : command.name = d.command
  · rw [if_pos hname, Command.noting_eq_self_iff]
    exact ⟨fun h _ => h, fun h => h hname⟩
  · rw [if_neg hname]
    exact iff_of_true rfl fun h => absurd h hname

/-! ## Refused declarations -/

/-- After a refused declaration, and any further ones, a tree is flattened as if it had not been offered,
but for its package: a command without a function of its own is generated for that package if it stands
first.  So nothing changes exactly if the tree cannot be flattened, or the command has a function or a package
that stands first. -/
theorem flatten_refused {ds : List Declaration} {d : Declaration} {error : BuildError}
    (hrefused : ((({} : CommandTree).insertEach ds).insert d).2 = some error) (es : List Declaration)
    (reserved : List String) :
    (((({} : CommandTree).insertEach ds).insert d).1.insertEach es).flatten reserved
        = (((({} : CommandTree).insertEach ds).insertEach es).flatten reserved).map (·.noting d) ∧
      ((((({} : CommandTree).insertEach ds).insert d).1.insertEach es).flatten reserved
          = ((({} : CommandTree).insertEach ds).insertEach es).flatten reserved ↔
        ∀ model, ((({} : CommandTree).insertEach ds).insertEach es).flatten reserved = .ok model →
          ∀ command ∈ model.commands, command.name = d.command →
            command.function ≠ none ∨
              ∃ present, command.package = some present ∧ present ≤ d.binding.package) := by
  have hflatten := CommandTree.flatten_noting
    ((({} : CommandTree).insertEach ds).insertEach es) d reserved
  rw [← CommandTree.insertEach_refused hrefused] at hflatten
  refine ⟨hflatten, ?_⟩
  rw [hflatten, map_eq_self_iff]
  exact forall₂_congr fun model _ => Model.noting_eq_self_iff

/-- A declaration of a subcommand by a function of another package. -/
def outsideAdd : Declaration :=
  { Declaration.plain "app" ["add"] "Add" with
    binding :=
      { name := "Add", package := "example.com/remote", file := "add.go", parameters := [], returns := {} } }

/-- The command has a function from one package.  A second one from another package is refused, and the
command is generated for that package all the same. -/
theorem flatten_refused_outsideAdd :
    (∃ error, ((({} : CommandTree).insertEach [outsideAdd]).insert (.plain "app" ["add"] "AddAgain")).2
        = some error) ∧
      (((({} : CommandTree).insertEach [outsideAdd]).insert (.plain "app" ["add"] "AddAgain")).1.insertEach
          []).flatten []
        ≠ ((({} : CommandTree).insertEach [outsideAdd]).insertEach []).flatten [] := by
  have hrefused : ((({} : CommandTree).insertEach [outsideAdd]).insert (.plain "app" ["add"] "AddAgain")).2
      = some (.duplicateDefinition "app add" "example.com/remote.Add (add.go)"
          "example.com/app.AddAgain (main.go)") := by
    decide +kernel
  have hok : (((({} : CommandTree).insertEach [outsideAdd]).insertEach []).flatten []).map (fun model =>
      decide (∃ command ∈ model.commands, command.name = "app" ∧ command.function = none ∧
        command.package = some "example.com/remote")) = .ok true := by
    decide +kernel
  obtain ⟨model, hmodel, hshape⟩ := map_eq_ok_iff.mp hok
  obtain ⟨command, hcommand, hname, hfunction, hpackage⟩ := of_decide_eq_true hshape
  refine ⟨⟨_, hrefused⟩, ?_⟩
  intro hsame
  rcases (flatten_refused hrefused [] []).2.mp hsame model hmodel command hcommand hname with
    hsome | ⟨present, hpresent, hfirst⟩
  · exact hsome hfunction
  · rw [hpackage] at hpresent
    cases hpresent
    exact absurd hfirst (by decide)

end CommandDoc
