import CommandDoc.Proofs.Name.Identifier
import CommandDoc.Proofs.Tree.Row
import CommandDoc.Proofs.Tree.Acceptance

/-!
# Generated names of a command

The structs of a command and of its nodes get their names from one pool, in the order in which they stand.
Completing the parameters of the nodes leaves the names alone.

Main definitions:

- `Command.structNames`: the generated names of a command and its nodes.
- `Command.nameSeeds`: what these names are made of, read off the command.

Main results:

- Theorem `Branch.structNames_of_flatten`: the names of a flattened command are those that one pool hands
  out for its seeds.
- Theorem `allocates_of_flatten`: so they are all different, not reserved, and of the form of generated names.
-/

namespace CommandDoc

namespace Command

/-- The generated names of a command: its own, and then those of its nodes. -/
def structNames (command : Command) : List String :=
  command.structName :: command.nodes.map (·.structName)

/-- What the generated names of a command and of its nodes are made of: the name of the function, or else the
name of the command or the node. -/
def nameSeeds (command : Command) : List String :=
  (command.function.map (·.name)).getD command.name
    :: command.nodes.map fun node => (node.function.map (·.name)).getD node.name

end Command

namespace Branch

variable {branch : Branch} {name : String} {reserved : List String} {command : Command}

theorem map_structName_nodeRow {structNames : List String}
    (hlength : structNames.length = branch.nodes.length) :
    (branch.nodeRow name structNames).map (·.structName) = structNames := by
  calc (branch.nodeRow name structNames).map (·.structName)
      = ((branch.nodes.zip structNames).zipIdx.map Prod.fst).map Prod.snd := by
        rw [nodeRow, List.map_map, List.map_map]
        rfl
    _ = structNames := by
        rw [List.zipIdx_map_fst, List.map_snd_zip (Nat.le_of_eq hlength)]

theorem map_nameSeed_nodeRow {structNames : List String}
    (hlength : structNames.length = branch.nodes.length) :
    (branch.nodeRow name structNames).map (fun node => (node.function.map (·.name)).getD node.name)
      = branch.nodes.map fun entry => nameSeed (entry.1.getLastD "") entry.2 := by
  calc (branch.nodeRow name structNames).map (fun node => (node.function.map (·.name)).getD node.name)
      = ((branch.nodes.zip structNames).zipIdx.map Prod.fst).map
          fun entry => nameSeed (entry.1.1.getLastD "") entry.1.2 := by
        rw [nodeRow, List.map_map, List.map_map]
        apply List.map_congr_left
        rintro ⟨⟨⟨path, payload⟩, structName⟩, id⟩ -
        simp only [Function.comp_apply, pathNode, nameSeed, Option.map_map]
        rfl
    _ = ((branch.nodes.zip structNames).map Prod.fst).map
          fun entry => nameSeed (entry.1.getLastD "") entry.2 := by
        rw [List.zipIdx_map_fst, List.map_map]
        rfl
    _ = branch.nodes.map fun entry => nameSeed (entry.1.getLastD "") entry.2 := by
        rw [List.map_fst_zip (Nat.le_of_eq hlength.symm)]

theorem nameSeeds_of_flatten (h : branch.flatten name reserved = .ok command) :
    command.nameSeeds = branch.nameSeeds name := by
  obtain ⟨nodes, rfl, houtline⟩ := flatten_eq_ok h
  have hnodes : nodes.map (fun node => (node.function.map (·.name)).getD node.name)
      = branch.nodes.map fun entry => nameSeed (entry.1.getLastD "") entry.2 :=
    (map_eq_of_outline (fun _ => rfl) houtline).trans
      (map_nameSeed_nodeRow (branch.length_structNames name reserved))
  have hroot : ((branch.root.map (·.binding)).map (·.name)).getD name = nameSeed name branch.root := by
    rw [nameSeed, Option.map_map]
    rfl
  exact congrArg₂ List.cons hroot hnodes

/-- The names of a flattened command are those that one pool hands out for its seeds. -/
theorem structNames_of_flatten (h : branch.flatten name reserved = .ok command) :
    command.structNames = (NamePool.withReserved reserved).allocateAll command.nameSeeds := by
  rw [nameSeeds_of_flatten h]
  obtain ⟨nodes, rfl, houtline⟩ := flatten_eq_ok h
  have hnodes : nodes.map (·.structName)
      = ((NamePool.withReserved reserved).allocateAll (branch.nameSeeds name)).tail :=
    (map_eq_of_outline (fun _ => rfl) houtline).trans
      (map_structName_nodeRow (branch.length_structNames name reserved))
  rw [Command.structNames, hnodes]
  rfl

end Branch

/-- In every command of a flattened tree, the names of the command and its nodes are those that one pool hands
out for their functions or names, in order.  So they are all different, neither always nor additionally
reserved, and of the form of generated names. -/
theorem allocates_of_flatten {tree : CommandTree} {reserved : List String} {model : Model}
    (h : tree.flatten reserved = .ok model) :
    ∀ command ∈ model.commands,
      command.structNames = (NamePool.withReserved reserved).allocateAll command.nameSeeds ∧
        command.structNames.Nodup ∧
        ∀ name ∈ command.structNames,
          name ∉ reservedNames ∧ name ∉ reserved ∧ IsGeneratedName name := by
  intro command hcommand
  obtain ⟨entry, -, hflatten⟩ := CommandTree.exists_branch_of_flatten h hcommand
  have hnames := Branch.structNames_of_flatten hflatten
  refine ⟨hnames, ?_, ?_⟩
  · rw [hnames]
    exact NamePool.nodup_allocateAll _ _
  · rw [hnames]
    intro name hname
    have hunused := NamePool.not_mem_used_of_mem_allocateAll hname
    rw [NamePool.withReserved, List.mem_append, not_or] at hunused
    exact ⟨hunused.1, hunused.2, NamePool.isGeneratedName_of_mem_allocateAll hname⟩

/-- Subcommands whose words give the same identifier, one that has a number already, and one that is
reserved. -/
def collidingDeclarations : List Declaration :=
  [.plain "app" ["foo-bar"] "FooBar", .plain "app" ["foo_bar", "usage"] "FooBar2",
    .plain "app" ["foo_bar", "übung"] "Run", .plain "app" ["7 up"] "FooBar"]

/-- In the order of the paths, the names are numbered past each other. -/
theorem allocates_of_flatten_collidingDeclarations :
    ∃ model, ((({} : CommandTree).insertEach collidingDeclarations).flatten ["Run"]) = .ok model ∧
      ∃ command ∈ model.commands,
        command.structNames = ["App", "FooBar", "FooBar2", "FooBar3", "FooBar22", "Run2"] ∧
          command.structNames.Nodup := by
  have hok : ((({} : CommandTree).insertEach collidingDeclarations).flatten ["Run"]).map (fun model =>
      decide (∃ command ∈ model.commands,
        command.structNames = ["App", "FooBar", "FooBar2", "FooBar3", "FooBar22", "Run2"])) = .ok true := by
    decide +kernel
  obtain ⟨model, hmodel, hshape⟩ := map_eq_ok_iff.mp hok
  obtain ⟨command, hcommand, hnames⟩ := of_decide_eq_true hshape
  exact ⟨model, hmodel, command, hcommand, hnames, (allocates_of_flatten hmodel command hcommand).2.1⟩

end CommandDoc
