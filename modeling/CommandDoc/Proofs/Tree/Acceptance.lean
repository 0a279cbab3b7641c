import Mathlib.Algebra.Ring.Nat
import CommandDoc.Proofs.Tree.Deferral
import CommandDoc.Report

/-!
# A tree as a map of what it accepted

Of the declarations that are offered to a tree, those at a place that is taken are refused.  This module
shows that the tree is a map from places to the accepted declarations: an insertion is refused exactly if an
accepted declaration has its place, the size is the number of the accepted ones, and a flattened tree shows
each of them at its place and nothing anywhere else.

Main definitions:

- `CommandTree.accepted`: the declarations that a run of insertions accepts.
- `Model.Displays`: a model shows some declarations and nothing else.

Main results:

- Theorem `CommandTree.firstAt?_eq_some_iff_accepted`: what counts at a place is what was accepted for it.
- Theorem `CommandTree.declarations_perm_accepted`: a tree holds exactly the accepted declarations.
- Theorem `insertEach_refines_accepted`: refusals, size, model and report of a tree, in terms of what it
  accepted.
-/

namespace CommandDoc

/-! ## Accepted declarations -/

theorem firstAt?_declarationsOf_concat (ds : List Declaration) (d : Declaration) (command : String)
    (path : List String) :
    firstAt? (declarationsOf (ds ++ [d]) command) path
      = (firstAt? (declarationsOf ds command) path).or
          (if d.place = (command, path) then some d else none) := by
  by_cases hcommand : d.command = command
  · have hone : declarationsOf [d] command = [d] := by simp [declarationsOf, hcommand]
    rw [declarationsOf_append, hone, firstAt?_concat]
    simp [Declaration.place, hcommand]
  · have hnone : declarationsOf [d] command = [] := by simp [declarationsOf, hcommand]
    rw [declarationsOf_append, hnone, List.append_nil]
    simp [Declaration.place, hcommand]

/-- Among declarations at different places, the first at a place is the one there. -/
theorem firstAt?_declarationsOf_eq_some_iff {ds : List Declaration}
    (hnodup : (ds.map Declaration.place).Nodup) {command : String} {path : List String}
    {d : Declaration} :
    firstAt? (declarationsOf ds command) path = some d ↔ d ∈ ds ∧ d.place = (command, path) := by
  have hof : ∀ e, firstAt? (declarationsOf ds command) path = some e →
      e ∈ ds ∧ e.place = (command, path) := by
    intro e he
    have hmem : e ∈ declarationsOf ds command := List.mem_of_find?_eq_some he
    rw [declarationsOf, List.mem_filter, beq_iff_eq] at hmem
    exact ⟨hmem.1, Prod.ext hmem.2 (path_of_firstAt?_eq_some he)⟩
  constructor
  · exact hof d
  · rintro ⟨hd, hplace⟩
    cases hfirst : firstAt? (declarationsOf ds command) path with
    | none =>
      obtain ⟨rfl, rfl⟩ := Prod.mk.inj hplace
      exact absurd (List.mem_map_of_mem hd) (firstAt?_declarationsOf_eq_none_iff.mp hfirst)
    | some e =>
      obtain ⟨he, hplace'⟩ := hof e hfirst
      rw [List.inj_on_of_nodup_map hnodup he hd (hplace'.trans hplace.symm)]

namespace CommandTree

/-- The declarations of a run of insertions that the tree accepts, in order. -/
def accepted (tree : CommandTree) : List Declaration → List Declaration
  | [] => []
  | d :: ds =>
    match tree.insert d with
    | (next, none) => d :: next.accepted ds
    | (next, some _) => next.accepted ds

/-- The next declaration is among the accepted ones exactly if it is not refused. -/
theorem accepted_concat (tree : CommandTree) (ds : List Declaration) (d : Declaration) :
    tree.accepted (ds ++ [d])
      = tree.accepted ds ++ (if ((tree.insertEach ds).insert d).2 = none then [d] else []) := by
  induction ds generalizing tree with
  | nil =>
    cases hinsert : tree.insert d with
    | mk next error =>
      cases error with
      | none => simp [accepted, insertEach, hinsert]
      | some error => simp [accepted, insertEach, hinsert]
  | cons e es ih =>
    have hstep : tree.insertEach (e :: es) = (tree.insert e).1.insertEach es := by
      rw [insertEach, List.foldl_cons, insertEach]
    rw [List.cons_append, accepted, accepted, hstep]
    cases hinsert : tree.insert e with
    | mk next error =>
      cases error with
      | none => exact congrArg (e :: ·) (ih next)
      | some error => exact ih next

/-- One insertion on: a declaration at a new place is accepted, one at a place that is taken is not. -/
theorem accepted_empty_concat (ds : List Declaration) (d : Declaration) :
    ({} : CommandTree).accepted (ds ++ [d])
      = ({} : CommandTree).accepted ds
          ++ (if d.place ∈ ds.map Declaration.place then [] else [d]) := by
  rw [accepted_concat, insertEach_empty]
  by_cases htaken : d.place ∈ ds.map Declaration.place
  · rw [if_pos htaken, if_neg fun h => insert_ofDeclarations_eq_none_iff.mp h htaken]
  · rw [if_neg htaken, if_pos (insert_ofDeclarations_eq_none_iff.mpr htaken)]

/-- The first declaration offered at a place is the first accepted one. -/
theorem firstAt?_accepted (ds : List Declaration) (command : String) (path : List String) :
    firstAt? (declarationsOf (({} : CommandTree).accepted ds) command) path
      = firstAt? (declarationsOf ds command) path := by
  induction ds using List.reverseRecOn with
  | nil => rfl
  | append_singleton ds d ih =>
    rw [accepted_empty_concat, firstAt?_declarationsOf_concat]
    by_cases htaken : d.place ∈ ds.map Declaration.place
    · rw [if_pos htaken, List.append_nil, ih]
      by_cases hplace : d.place = (command, path)
      · -- The place is taken, so there is a first declaration already.
        obtain ⟨rfl, rfl⟩ := Prod.mk.inj hplace
        cases hfirst : firstAt? (declarationsOf ds d.command) d.path with
        | none => exact absurd htaken (firstAt?_declarationsOf_eq_none_iff.mp hfirst)
        | some e => rfl
      · rw [if_neg hplace, Option.or_none]
    · rw [if_neg htaken, firstAt?_declarationsOf_concat, ih]

/-- A place is taken by an accepted declaration exactly if it is taken at all: its first declaration is accepted. -/
theorem place_mem_accepted_iff {ds : List Declaration} {d : Declaration} :
    d.place ∈ (({} : CommandTree).accepted ds).map Declaration.place ↔
      d.place ∈ ds.map Declaration.place := by
  rw [← not_iff_not, ← firstAt?_declarationsOf_eq_none_iff, ← firstAt?_declarationsOf_eq_none_iff,
    firstAt?_accepted]

/-- The accepted declarations are at different places. -/
theorem nodup_place_accepted (ds : List Declaration) :
    ((({} : CommandTree).accepted ds).map Declaration.place).Nodup := by
  induction ds using List.reverseRecOn with
  | nil => exact List.nodup_nil
  | append_singleton ds d ih =>
    rw [accepted_empty_concat]
    by_cases htaken : d.place ∈ ds.map Declaration.place
    · rw [if_pos htaken, List.append_nil]
      exact ih
    · rw [if_neg htaken, List.map_append, List.map_singleton, List.nodup_append']
      refine ⟨ih, List.nodup_singleton _, ?_⟩
      intro place hplace hmem
      rw [List.mem_singleton.mp hmem, place_mem_accepted_iff] at hplace
      exact htaken hplace

/-- What counts at a place is the declaration that was accepted for it. -/
theorem firstAt?_eq_some_iff_accepted {ds : List Declaration} {command : String} {path : List String}
    {d : Declaration} :
    firstAt? (declarationsOf ds command) path = some d ↔
      d ∈ ({} : CommandTree).accepted ds ∧ d.place = (command, path) := by
  rw [← firstAt?_accepted, firstAt?_declarationsOf_eq_some_iff (nodup_place_accepted ds)]

/-- What is accepted was offered. -/
theorem mem_of_mem_accepted {ds : List Declaration} {d : Declaration}
    (h : d ∈ ({} : CommandTree).accepted ds) : d ∈ declarationsOf ds d.command :=
  List.mem_of_find?_eq_some (firstAt?_eq_some_iff_accepted.mpr ⟨h, rfl⟩)

/-- The error of an insertion is about the accepted declaration at its place, if there is one. -/
theorem insert_snd_eq_some_iff {ds : List Declaration} {d : Declaration} {error : BuildError} :
    ((({} : CommandTree).insertEach ds).insert d).2 = some error ↔
      ∃ existing ∈ ({} : CommandTree).accepted ds, existing.place = d.place ∧
        error = .duplicateDefinition d.label existing.binding.origin d.binding.origin := by
  have hsnd : ((({} : CommandTree).insertEach ds).insert d).2
      = (firstAt? (declarationsOf ds d.command) d.path).map fun existing => duplicate existing d := by
    rw [insertEach_empty, insert, branch_ofDeclarations,
      Branch.declared?_grow_notePackage_ofDeclarations]
    cases firstAt? (declarationsOf ds d.command) d.path with
    | none => rfl
    | some existing => rfl
  rw [hsnd, Option.map_eq_some_iff]
  constructor
  · rintro ⟨existing, hfirst, rfl⟩
    obtain ⟨hmem, hplace⟩ := firstAt?_eq_some_iff_accepted.mp hfirst
    exact ⟨existing, hmem, hplace, rfl⟩
  · rintro ⟨existing, hmem, hplace, rfl⟩
    exact ⟨existing, firstAt?_eq_some_iff_accepted.mpr ⟨hmem, hplace⟩, rfl⟩

end CommandTree

/-! ## What a tree holds -/

/-- The declarations of a branch are the first ones at its paths, the command's own in front. -/
theorem Branch.declarations_ofDeclarations (ds : List Declaration) :
    (Branch.ofDeclarations ds).declarations = ([] :: Branch.startsOf ds).filterMap (firstAt? ds) := by
  rw [Branch.declarations, Branch.ofDeclarations, List.filterMap_map, List.filterMap_cons]
  cases firstAt? ds [] with
  | none => rfl
  | some root => rfl

/-- The branch of a command holds what was accepted for the command. -/
theorem Branch.mem_declarations_iff_accepted {ds : List Declaration} {command : String}
    {d : Declaration} :
    d ∈ (Branch.ofDeclarations (declarationsOf ds command)).declarations ↔
      d ∈ ({} : CommandTree).accepted ds ∧ d.command = command := by
  rw [Branch.declarations_ofDeclarations, List.mem_filterMap]
  constructor
  · rintro ⟨path, -, hfirst⟩
    obtain ⟨hmem, hplace⟩ := CommandTree.firstAt?_eq_some_iff_accepted.mp hfirst
    exact ⟨hmem, congrArg Prod.fst hplace⟩
  · rintro ⟨hmem, rfl⟩
    refine ⟨d.path, ?_, CommandTree.firstAt?_eq_some_iff_accepted.mpr ⟨hmem, rfl⟩⟩
    by_cases hnil : d.path = []
    · rw [hnil]
      exact List.mem_cons_self
    · have hd := CommandTree.mem_of_mem_accepted hmem
      exact List.mem_cons_of_mem _ (Branch.mem_startsOf.mpr ⟨hnil, d, hd, List.prefix_refl _⟩)

/-- No declaration stands in a branch twice. -/
theorem Branch.nodup_declarations_ofDeclarations (ds : List Declaration) :
    (Branch.ofDeclarations ds).declarations.Nodup := by
  rw [Branch.declarations_ofDeclarations]
  refine List.Nodup.filterMap ?_ (List.nodup_cons.mpr ⟨?_, ?_⟩)
  · intro path other d hd hd'
    rw [← path_of_firstAt?_eq_some hd, ← path_of_firstAt?_eq_some hd']
  · intro hmem
    exact (Branch.mem_startsOf.mp hmem).1 rfl
  · exact Ordered.nodup_of_pairwise pathBefore_strictOrder (Branch.pairwise_startsOf ds)

namespace CommandTree

/-- A tree holds each accepted declaration once, and nothing else. -/
theorem declarations_perm_accepted (ds : List Declaration) :
    (({} : CommandTree).insertEach ds).declarations.Perm (({} : CommandTree).accepted ds) := by
  have hstrings := Ordered.pairwise_sortDistinct Ordered.stringBefore_strictOrder (ds.map (·.command))
  rw [insertEach_empty, declarations, ofDeclarations, List.flatMap_map]
  rw [List.perm_ext_iff_of_nodup]
  · intro d
    rw [List.mem_flatMap]
    constructor
    · rintro ⟨command, -, hmem⟩
      exact (Branch.mem_declarations_iff_accepted.mp hmem).1
    · intro hmem
      refine ⟨d.command, ?_, Branch.mem_declarations_iff_accepted.mpr ⟨hmem, rfl⟩⟩
      rw [Ordered.sortStrings, Ordered.mem_sortDistinct Ordered.stringBefore_strictOrder]
      exact List.mem_map_of_mem (List.mem_of_mem_filter (mem_of_mem_accepted hmem))
  · rw [List.nodup_flatMap]
    refine ⟨fun _ _ => Branch.nodup_declarations_ofDeclarations _, ?_⟩
    refine (Ordered.nodup_of_pairwise Ordered.stringBefore_strictOrder hstrings).imp ?_
    intro command other hne d hd hd'
    have hcommand := (Branch.mem_declarations_iff_accepted.mp hd).2
    have hother := (Branch.mem_declarations_iff_accepted.mp hd').2
    exact hne (hcommand.symm.trans hother)
  · exact (nodup_place_accepted ds).of_map _

/-- The size of a tree is the number of declarations that it accepted. -/
theorem size_eq_length_accepted (ds : List Declaration) :
    (({} : CommandTree).insertEach ds).size = (({} : CommandTree).accepted ds).length := by
  rw [size, (declarations_perm_accepted ds).length_eq]

end CommandTree

/-! ## What a model shows -/

/-- What a parameter keeps on its way from the signature to the model. -/
def Parameter.signature (p : Parameter) : String × TypeTag :=
  (p.name, p.type)

/-- A node shows the declaration at its place; if nothing is declared there, it shows nothing. -/
structure Node.Displays (node : Node) (declared : Option Declaration) : Prop where
  /-- It runs the function. -/
  function_eq : node.function = declared.map (·.binding)
  /-- It has the short description. -/
  description_eq : node.description = declared.bind (·.description)
  /-- It has the help text. -/
  extendedHelp_eq : node.extendedHelp = declared.bind (·.extendedHelp)
  /-- It has the other names. -/
  aliases_eq : node.aliases = (declared.map (·.aliases)).getD []
  /-- It has one parameter for each that is declared, in order. -/
  parameters_eq : node.parameters.map Parameter.signature
    = ((declared.map (·.parameters)).getD []).map Parameter.signature

/-- A command shows the declaration of itself; if there is none, it shows nothing. -/
structure Command.Displays (command : Command) (declared : Option Declaration) : Prop where
  /-- It runs the function. -/
  function_eq : command.function = declared.map (·.binding)
  /-- It has the short description. -/
  description_eq : command.description = declared.bind (·.description)
  /-- It has the help text. -/
  extendedHelp_eq : command.extendedHelp = declared.bind (·.extendedHelp)
  /-- It has one parameter for each that is declared, in order. -/
  parameters_eq : command.parameters.map Parameter.signature
    = ((declared.map (·.parameters)).getD []).map Parameter.signature

/-- A model shows declarations, each at its place, and nothing anywhere else. -/
structure Model.Displays (model : Model) (ds : List Declaration) : Prop where
  /-- Every declaration has its place. -/
  exists_place : ∀ d ∈ ds, ∃ command ∈ model.commands, command.name = d.command ∧
    (d.path = [] ∨ ∃ node ∈ command.nodes, node.path = d.path)
  /-- A command shows the declaration of itself. -/
  command_at : ∀ command ∈ model.commands, ∀ d ∈ ds, d.place = (command.name, []) →
    command.Displays (some d)
  /-- A node shows the declaration at its path. -/
  node_at : ∀ command ∈ model.commands, ∀ node ∈ command.nodes, ∀ d ∈ ds,
    d.place = (command.name, node.path) → node.Displays (some d)
  /-- Other commands show nothing. -/
  command_bare : ∀ command ∈ model.commands, (∀ d ∈ ds, d.place ≠ (command.name, [])) →
    command.Displays none
  /-- Other nodes show nothing. -/
  node_bare : ∀ command ∈ model.commands, ∀ node ∈ command.nodes,
    (∀ d ∈ ds, d.place ≠ (command.name, node.path)) → node.Displays none

namespace Branch

/-- What is declared at a path is the first declaration there. -/
theorem declared?_ofDeclarations (ds : List Declaration) (path : List String) :
    (ofDeclarations ds).declared? path = firstAt? ds path := by
  by_cases hnil : path = []
  · rw [hnil]
    rfl
  · rw [declared?, if_neg (by simpa using hnil), ofDeclarations, Ordered.find?_map]
    split
    · rfl
    · next hnot =>
      refine (firstAt?_eq_none_of_not_mem hnil fun hmem => hnot ?_).symm
      exact (Ordered.mem_sortDistinct pathBefore_strictOrder).mpr hmem

/-- What counts at a path of a command was inserted. -/
theorem mem_of_declared?_insertEach {ds : List Declaration} {command : String} {path : List String}
    {d : Declaration} (h : ((({} : CommandTree).insertEach ds).branch command).declared? path = some d) :
    d ∈ ds := by
  rw [CommandTree.insertEach_empty, CommandTree.branch_ofDeclarations, declared?_ofDeclarations] at h
  exact List.mem_of_mem_filter (List.mem_of_find?_eq_some h)

/-- Every path of a command is the start of an inserted one. -/
theorem exists_of_mem_paths_insertEach {ds : List Declaration} {command : String} {path : List String}
    (h : path ∈ ((({} : CommandTree).insertEach ds).branch command).paths) : ∃ d ∈ ds, path <+: d.path := by
  rw [CommandTree.insertEach_empty, CommandTree.branch_ofDeclarations, paths_ofDeclarations] at h
  rcases mem_startsOf.mp h with ⟨-, d, hd, hstart⟩
  exact ⟨d, List.mem_of_mem_filter hd, hstart⟩

variable {branch : Branch} {name : String} {reserved : List String} {command : Command}

/-- Completing parameters does not touch their signatures. -/
theorem map_signature_of_completes {path : List String} {declared final : List Parameter}
    (h : List.Forall₂ (branch.Completes name path) declared final) :
    final.map Parameter.signature = declared.map Parameter.signature := by
  refine map_eq_of_forall₂ ?_ h
  intro p q hpq
  cases hpq with
  | own _ => rfl
  | deferred _ _ => rfl

/-- The flattened command shows what is declared at the command itself. -/
theorem displays_of_flatten (row : IsPathRow branch.paths)
    (h : branch.flatten name reserved = .ok command) : command.Displays (branch.declared? []) := by
  have hparameters := map_signature_of_completes (isCompleted_of_flatten row h).root
  obtain ⟨nodes, rfl, -⟩ := flatten_eq_ok h
  exact ⟨rfl, rfl, rfl, hparameters⟩

/-- Every node shows what is declared at its path. -/
theorem node_displays_of_flatten (row : IsPathRow branch.paths)
    (h : branch.flatten name reserved = .ok command) {node : Node} (hnode : node ∈ command.nodes) :
    node.Displays (branch.declared? node.path) := by
  have hparameters := map_signature_of_completes ((isCompleted_of_flatten row h).nodes node hnode)
  obtain ⟨nodes, rfl, houtline⟩ := flatten_eq_ok h
  have hmem : node.outline ∈ (branch.row name reserved).nodes.map Node.outline := by
    rw [← houtline]
    exact List.mem_map_of_mem hnode
  obtain ⟨old, hold, heq⟩ := List.mem_map.mp hmem
  have hpath := congrArg Node.path heq
  change old.path = node.path at hpath
  have hdeclared := eq_pathNode_of_mem_row row hold
  rw [hpath] at hdeclared
  rw [hdeclared] at heq
  exact ⟨(congrArg Node.function heq).symm, (congrArg Node.description heq).symm,
    (congrArg Node.extendedHelp heq).symm, (congrArg Node.aliases heq).symm, hparameters⟩

/-! ## Counts -/

/-- The functions of the row are those the entries of the branch are bound to. -/
theorem map_function_nodeRow {structNames : List String} (hlength : structNames.length = branch.nodes.length) :
    (branch.nodeRow name structNames).map (·.function)
      = branch.nodes.map fun entry => entry.2.map (·.binding) := by
  calc (branch.nodeRow name structNames).map (·.function)
      = (((branch.nodes.zip structNames).zipIdx.map Prod.fst).map Prod.fst).map
          fun entry => entry.2.map (·.binding) := by
        rw [nodeRow, List.map_map, List.map_map, List.map_map]
        rfl
    _ = branch.nodes.map fun entry => entry.2.map (·.binding) := by
        rw [List.zipIdx_map_fst, List.map_fst_zip (Nat.le_of_eq hlength.symm)]

/-- In a flattened command as many nodes have a function as there are declarations at its paths. -/
theorem countP_function_of_flatten (h : branch.flatten name reserved = .ok command) :
    command.nodes.countP (·.function.isSome) = (branch.nodes.filterMap (·.2)).length := by
  obtain ⟨nodes, rfl, houtline⟩ := flatten_eq_ok h
  have hrow : nodes.map (·.function) = branch.nodes.map fun entry => entry.2.map (·.binding) :=
    (map_eq_of_outline (fun _ => rfl) houtline).trans
      (map_function_nodeRow (branch.length_structNames name reserved))
  calc nodes.countP (·.function.isSome)
      = (nodes.map (·.function)).countP Option.isSome := by
        rw [List.countP_map]
        rfl
    _ = branch.nodes.countP (·.2.isSome) := by
        rw [hrow, List.countP_map]
        apply List.countP_congr
        intro entry _
        rw [Function.comp_apply, Option.isSome_map]
    _ = (branch.nodes.filterMap (·.2)).length := List.length_filterMap_eq_countP.symm

/-- The nodes of a summary that are not synthetic, and the command if it has a function, are as many as the
declarations of the branch. -/
theorem summary_of_flatten (h : branch.flatten name reserved = .ok command) :
    ((CommandSummary.ofCommand command).nodes - (CommandSummary.ofCommand command).syntheticNodes)
        + (if command.function.isSome then 1 else 0)
      = branch.declarations.length := by
  have hnodes : (CommandSummary.ofCommand command).nodes
      - (CommandSummary.ofCommand command).syntheticNodes
        = command.nodes.countP (·.function.isSome) := by
    have hsplit := List.length_eq_countP_add_countP (·.function.isSome) (l := command.nodes)
    have hsynthetic : command.nodes.countP (fun node => decide ¬ node.function.isSome = true)
        = (command.nodes.filter Node.isSynthetic).length := by
      rw [← List.countP_eq_length_filter]
      apply List.countP_congr
      intro node _
      rw [Node.isSynthetic]
      cases node.function <;> simp
    change command.nodes.length - (command.nodes.filter Node.isSynthetic).length = _
    omega
  have hroot : (if command.function.isSome then 1 else 0) = branch.root.toList.length := by
    obtain ⟨nodes, rfl, -⟩ := flatten_eq_ok h
    rw [row]
    cases branch.root with
    | none => rfl
    | some root => rfl
  rw [hnodes, hroot, countP_function_of_flatten h, declarations, List.length_append, Nat.add_comm]

end Branch

/-- Over all commands of a flattened tree, these are the declarations of the tree. -/
theorem CommandTree.sum_summaries_of_flatten {tree : CommandTree} {reserved : List String} {model : Model}
    (h : tree.flatten reserved = .ok model) :
    ((model.commands.map CommandSummary.ofCommand).map fun summary =>
        summary.nodes - summary.syntheticNodes).sum
      + (model.commands.filter (·.function.isSome)).length = tree.size := by
  have hcommands : model.commands.map (fun command =>
        ((CommandSummary.ofCommand command).nodes - (CommandSummary.ofCommand command).syntheticNodes)
          + (if command.function.isSome then 1 else 0))
      = tree.commands.map fun entry => entry.2.declarations.length :=
    map_eq_of_mapM_eq_ok (fun _ _ => Branch.summary_of_flatten) (flatten_eq_ok h)
  rw [size, declarations, List.length_flatMap, ← hcommands]
  generalize model.commands = commands
  induction commands with
  | nil => rfl
  | cons command commands ih =>
    rw [List.map_cons, List.map_cons, List.map_cons, List.sum_cons, List.sum_cons, ← ih, List.filter_cons]
    cases command.function.isSome with
    | true =>
      rw [if_pos rfl, if_pos rfl, List.length_cons]
      omega
    | false =>
      rw [if_neg (by simp), if_neg (by simp)]
      omega

/-- What a command of a flattened tree and its nodes show is what counts at their places. -/
theorem displays_firstAt?_of_flatten {ds : List Declaration} {reserved : List String} {model : Model}
    (h : (({} : CommandTree).insertEach ds).flatten reserved = .ok model) {command : Command}
    (hcommand : command ∈ model.commands) :
    command.Displays (firstAt? (declarationsOf ds command.name) []) ∧
      ∀ node ∈ command.nodes,
        node.Displays (firstAt? (declarationsOf ds command.name) node.path) := by
  obtain ⟨row, hflatten⟩ := CommandTree.flatten_branch_name h hcommand
  have hdeclared : ∀ path, ((({} : CommandTree).insertEach ds).branch command.name).declared? path
      = firstAt? (declarationsOf ds command.name) path := by
    intro path
    rw [CommandTree.insertEach_empty, CommandTree.branch_ofDeclarations, Branch.declared?_ofDeclarations]
  constructor
  · rw [← hdeclared]
    exact Branch.displays_of_flatten row hflatten
  · intro node hnode
    rw [← hdeclared]
    exact Branch.node_displays_of_flatten row hflatten hnode

/-- Every accepted declaration has its place in the model. -/
theorem exists_place_of_flatten {ds : List Declaration} {reserved : List String} {model : Model}
    (h : (({} : CommandTree).insertEach ds).flatten reserved = .ok model) {d : Declaration}
    (hd : d ∈ ({} : CommandTree).accepted ds) :
    ∃ command ∈ model.commands, command.name = d.command ∧
      (d.path = [] ∨ ∃ node ∈ command.nodes, node.path = d.path) := by
  have hof := CommandTree.mem_of_mem_accepted hd
  have hnames := CommandTree.map_name_of_flatten h
  rw [CommandTree.insertEach_empty, CommandTree.map_fst_commands_ofDeclarations] at hnames
  have hname : d.command ∈ model.commands.map (·.name) := by
    rw [hnames, Ordered.sortStrings, Ordered.mem_sortDistinct Ordered.stringBefore_strictOrder]
    exact List.mem_map_of_mem (List.mem_of_mem_filter hof)
  obtain ⟨command, hcommand, hcommandName⟩ := List.mem_map.mp hname
  refine ⟨command, hcommand, hcommandName, ?_⟩
  by_cases hnil : d.path = []
  · exact Or.inl hnil
  · have laid := Branch.laidOut_of_flatten (CommandTree.flatten_branch_name h hcommand).2
    rw [CommandTree.insertEach_empty, CommandTree.branch_ofDeclarations, Branch.paths_ofDeclarations,
      hcommandName] at laid
    exact Or.inr (laid.exists_node (Branch.mem_startsOf.mpr ⟨hnil, d, hof, List.prefix_refl _⟩))

/-- The model of a flattened tree shows what the tree accepted. -/
theorem displays_accepted_of_flatten {ds : List Declaration} {reserved : List String} {model : Model}
    (h : (({} : CommandTree).insertEach ds).flatten reserved = .ok model) :
    model.Displays (({} : CommandTree).accepted ds) := by
  have hnothing : ∀ command path, (∀ d ∈ ({} : CommandTree).accepted ds, d.place ≠ (command, path)) →
      firstAt? (declarationsOf ds command) path = none := by
    intro command path hfree
    cases hfirst : firstAt? (declarationsOf ds command) path with
    | none => rfl
    | some d =>
      obtain ⟨hd, hplace⟩ := CommandTree.firstAt?_eq_some_iff_accepted.mp hfirst
      exact absurd hplace (hfree d hd)
  refine
    { exists_place := fun d => exists_place_of_flatten h, command_at := ?_, node_at := ?_
      command_bare := ?_, node_bare := ?_ }
  · intro command hcommand d hd hplace
    rw [← CommandTree.firstAt?_eq_some_iff_accepted.mpr ⟨hd, hplace⟩]
    exact (displays_firstAt?_of_flatten h hcommand).1
  · intro command hcommand node hnode d hd hplace
    rw [← CommandTree.firstAt?_eq_some_iff_accepted.mpr ⟨hd, hplace⟩]
    exact (displays_firstAt?_of_flatten h hcommand).2 node hnode
  · intro command hcommand hfree
    rw [← hnothing command.name [] hfree]
    exact (displays_firstAt?_of_flatten h hcommand).1
  · intro command hcommand node hnode hfree
    rw [← hnothing command.name node.path hfree]
    exact (displays_firstAt?_of_flatten h hcommand).2 node hnode

/-- What a run of insertions leaves is told by the declarations that it accepts.  The next insertion is
refused exactly if one of them has its place; the tree has as many declarations; if it can be flattened, the
model shows each of them at its place and nothing elsewhere, and the nodes that are not synthetic and the
commands with a function that a report counts are as many, too. -/
theorem insertEach_refines_accepted (ds : List Declaration) (reserved : List String) :
    (∀ d error, ((({} : CommandTree).insertEach ds).insert d).2 = some error ↔
      ∃ existing ∈ ({} : CommandTree).accepted ds, existing.place = d.place ∧
        error = .duplicateDefinition d.label existing.binding.origin d.binding.origin) ∧
    (({} : CommandTree).insertEach ds).size = (({} : CommandTree).accepted ds).length ∧
    ∀ model, (({} : CommandTree).insertEach ds).flatten reserved = .ok model →
      model.Displays (({} : CommandTree).accepted ds) ∧
      ∀ count warnings,
        ((Report.ofModel model count warnings).commands.map fun summary =>
            summary.nodes - summary.syntheticNodes).sum
          + (model.commands.filter (·.function.isSome)).length
          = (({} : CommandTree).insertEach ds).size :=
  ⟨fun _ _ => CommandTree.insert_snd_eq_some_iff, CommandTree.size_eq_length_accepted ds,
    fun _ hmodel => ⟨displays_accepted_of_flatten hmodel,
      fun _ _ => CommandTree.sum_summaries_of_flatten hmodel⟩⟩

/-- Of five declarations the last is refused, as is one more of the second command; the other four are in
the model and in the report. -/
theorem insertEach_refines_accepted_sampleDeclarations :
    (∃ error, ((({} : CommandTree).insertEach sampleDeclarations).insert
      (.plain "tool" [] "Again")).2 = some error) ∧
    (({} : CommandTree).insertEach sampleDeclarations).size = 4 ∧
    ∃ model, (({} : CommandTree).insertEach sampleDeclarations).flatten [] = .ok model ∧
      model.Displays (({} : CommandTree).accepted sampleDeclarations) ∧
      ((Report.ofModel model 4 []).commands.map fun summary =>
          summary.nodes - summary.syntheticNodes).sum
        + (model.commands.filter (·.function.isSome)).length = 4 := by
  have haccepted : (({} : CommandTree).accepted sampleDeclarations)
      = [.plain "app" ["remote", "branch", "add"] "Add", .plain "tool" [] "Tool",
          .plain "app" ["remote"] "Remote", .plain "app" ["list"] "List"] := by
    decide +kernel
  obtain ⟨hrefused, hsize, hmodel⟩ := insertEach_refines_accepted sampleDeclarations []
  have hfour : (({} : CommandTree).insertEach sampleDeclarations).size = 4 := by
    rw [hsize, haccepted]
    rfl
  have hok : ((({} : CommandTree).insertEach sampleDeclarations).flatten []).isOk = true := by
    decide +kernel
  obtain ⟨model, hflatten⟩ := exists_eq_ok_of_isOk hok
  obtain ⟨hdisplays, hcounts⟩ := hmodel model hflatten
  refine ⟨⟨_, (hrefused _ _).mpr ⟨.plain "tool" [] "Tool", ?_, rfl, rfl⟩⟩, hfour, model, hflatten,
    hdisplays, (hcounts 4 []).trans hfour⟩
  rw [haccepted]
  exact List.mem_cons_of_mem _ List.mem_cons_self

end CommandDoc
