import CommandDoc.Proofs.Except
import CommandDoc.Tree.Flatten

/-!
# What flattening keeps

A branch is laid out as a row of nodes, and then the parameters of the nodes are completed in two passes.
The passes change nothing but parameters, so everything else of a flattened command can be read off the
paths of its branch.

Main results:

- Theorem `Branch.flatten_eq_ok`: a flattened command is the row of its branch up to parameters.
- Theorem `Branch.laidOut_of_flatten`: numbers, names, parents and children of a flattened command are
  those of the paths.
- Theorem `CommandTree.exists_branch_of_flatten`: every command of a flattened tree comes from a branch.
-/

namespace CommandDoc

/-- A node without its own parameters and those handed down to it. -/
def Node.outline (node : Node) : Node :=
  { node with parameters := [], inherited := [] }

/-! ## Passes that change only parameters -/

/-- Completing the parameters of nodes keeps the outlines. -/
theorem outline_resolveNodes {command : Command} {done rest nodes : List Node}
    (h : resolveNodes command done rest = .ok nodes) :
    nodes.map Node.outline = (done ++ rest).map Node.outline := by
  induction rest generalizing done with
  | nil =>
    rw [resolveNodes] at h
    cases h
    rw [List.append_nil]
  | cons node rest ih =>
    rw [resolveNodes] at h
    obtain ⟨parameters, _, hrest⟩ := bind_eq_ok_iff.mp h
    rw [ih hrest]
    simp [Node.outline]

/-- Completing the parameters of a command changes only its nodes, and keeps their outlines. -/
theorem Command.resolve_eq_ok {command resolved : Command} (h : command.resolve = .ok resolved) :
    ∃ nodes, resolved = { command with nodes := nodes } ∧
      nodes.map Node.outline = command.nodes.map Node.outline := by
  unfold Command.resolve at h
  split at h
  · cases h
  · obtain ⟨nodes, hnodes, heq⟩ := map_eq_ok_iff.mp h
    exact ⟨nodes, heq.symm, outline_resolveNodes hnodes⟩

/-- Handing parameters down changes nothing else about the nodes. -/
theorem Command.outline_inherit (command : Command) :
    command.inherit.nodes.map Node.outline = command.nodes.map Node.outline := by
  rw [Command.inherit, List.map_map]
  rfl

/-- A flattened command is the row of its branch up to the parameters of the nodes. -/
theorem Branch.flatten_eq_ok {branch : Branch} {name : String} {reserved : List String}
    {command : Command} (h : branch.flatten name reserved = .ok command) :
    ∃ nodes, command = { branch.row name reserved with nodes := nodes } ∧
      nodes.map Node.outline = (branch.row name reserved).nodes.map Node.outline := by
  unfold Branch.flatten at h
  obtain ⟨resolved, hresolved, rfl⟩ := map_eq_ok_iff.mp h
  obtain ⟨nodes, rfl, hnodes⟩ := Command.resolve_eq_ok hresolved
  refine ⟨nodes.map (Command.withInherited { branch.row name reserved with nodes := nodes }), rfl, ?_⟩
  rw [← hnodes]
  exact Command.outline_inherit { branch.row name reserved with nodes := nodes }

/-! ## The row of a branch -/

theorem NamePool.length_allocateAll (pool : NamePool) (seeds : List String) :
    (pool.allocateAll seeds).length = seeds.length := by
  induction seeds generalizing pool with
  | nil => rfl
  | cons seed seeds ih => rw [allocateAll, List.length_cons, ih, List.length_cons]

/-- Every node of a branch gets a struct name, behind the one of the command itself. -/
theorem Branch.length_structNames (branch : Branch) (name : String) (reserved : List String) :
    ((NamePool.withReserved reserved).allocateAll (branch.nameSeeds name)).tail.length
      = branch.nodes.length := by
  rw [List.length_tail, NamePool.length_allocateAll, nameSeeds, List.length_cons, List.length_map]
  rfl

/-- What the paths of a command say about the node at one of them. -/
structure Node.Fits (node : Node) (command : String) (paths : List (List String)) : Prop where
  /-- Its name is the last word of its path. -/
  name_eq : node.name = node.path.getLastD ""
  /-- It knows its command. -/
  command_eq : node.command = command
  /-- Its parent is at the path without the last word. -/
  parent_eq : node.parent = parentId? paths node.path
  /-- Its children are at the paths that are one word longer. -/
  children_eq : node.children = childIds paths node.path

/-- A command whose nodes stand for a list of paths, in order. -/
structure Command.LaidOut (command : Command) (paths : List (List String)) : Prop where
  /-- The nodes stand for the paths. -/
  paths_eq : command.nodes.map (·.path) = paths
  /-- A node's number is its place. -/
  ids_eq : command.nodes.map (·.id) = List.range command.nodes.length
  /-- Every node fits its path. -/
  fits : ∀ node ∈ command.nodes, node.Fits command.name paths
  /-- The command's children are at the paths of one word. -/
  roots_eq : command.children = childIds paths []

namespace Branch

/-- A node of the row is built from one entry of the branch, with some id and some struct name. -/
theorem exists_of_mem_nodeRow {branch : Branch} {name : String} {structNames : List String}
    {node : Node} (h : node ∈ branch.nodeRow name structNames) :
    ∃ id structName path payload, (path, payload) ∈ branch.nodes ∧
      node = pathNode name branch.paths id structName path payload := by
  rw [nodeRow, List.mem_map] at h
  obtain ⟨⟨⟨⟨path, payload⟩, structName⟩, id⟩, hentry, rfl⟩ := h
  exact ⟨id, structName, path, payload, (List.of_mem_zip (List.fst_mem_of_mem_zipIdx hentry)).1, rfl⟩

/-- With a struct name for each, the nodes of the row have the paths of the branch, in their order. -/
theorem map_path_nodeRow {branch : Branch} {name : String} {structNames : List String}
    (hlength : structNames.length = branch.nodes.length) :
    (branch.nodeRow name structNames).map (·.path) = branch.paths := by
  calc (branch.nodeRow name structNames).map (·.path)
      = ((branch.nodes.zip structNames).zipIdx.map Prod.fst).map fun entry => entry.1.1 := by
        rw [nodeRow, List.map_map, List.map_map]
        rfl
    _ = ((branch.nodes.zip structNames).map Prod.fst).map Prod.fst := by
        rw [List.zipIdx_map_fst, List.map_map]
        rfl
    _ = branch.paths := by
        rw [List.map_fst_zip (Nat.le_of_eq hlength.symm), paths]

/-- The ids of the row count up from zero. -/
theorem map_id_nodeRow (branch : Branch) (name : String) (structNames : List String) :
    (branch.nodeRow name structNames).map (·.id)
      = List.range (branch.nodeRow name structNames).length := by
  calc (branch.nodeRow name structNames).map (·.id)
      = (branch.nodes.zip structNames).zipIdx.map Prod.snd := by
        rw [nodeRow, List.map_map]
        rfl
    _ = List.range (branch.nodeRow name structNames).length := by
        rw [List.zipIdx_map_snd, nodeRow, List.length_map, List.length_zipIdx, List.range_eq_range']

/-- The row of a branch is laid out along its paths. -/
theorem laidOut_row (branch : Branch) (name : String) (reserved : List String) :
    (branch.row name reserved).LaidOut branch.paths where
  paths_eq := map_path_nodeRow (branch.length_structNames name reserved)
  ids_eq := map_id_nodeRow branch name _
  fits := by
    intro node hnode
    obtain ⟨id, structName, path, payload, -, rfl⟩ := exists_of_mem_nodeRow hnode
    exact ⟨rfl, rfl, rfl, rfl⟩
  roots_eq := rfl

end Branch

/-! ## The layout of a flattened command -/

/-- What shows in the outline is the same for nodes with the same outlines. -/
theorem map_eq_of_outline {γ : Type} {nodes old : List Node} {f : Node → γ}
    (hf : ∀ node, f node.outline = f node) (h : nodes.map Node.outline = old.map Node.outline) :
    nodes.map f = old.map f := by
  have hmap := congrArg (List.map f) h
  simpa only [List.map_map, Function.comp_def, hf] using hmap

/-- Whether a node fits its path shows in its outline. -/
theorem Node.fits_outline {node : Node} {command : String} {paths : List (List String)} :
    node.outline.Fits command paths ↔ node.Fits command paths :=
  ⟨fun h => ⟨h.name_eq, h.command_eq, h.parent_eq, h.children_eq⟩,
    fun h => ⟨h.name_eq, h.command_eq, h.parent_eq, h.children_eq⟩⟩

/-- The layout of a command shows in the outlines of its nodes. -/
theorem Command.LaidOut.of_outline {command : Command} {paths : List (List String)} {nodes : List Node}
    (h : command.LaidOut paths) (houtline : nodes.map Node.outline = command.nodes.map Node.outline) :
    ({ command with nodes := nodes }).LaidOut paths where
  paths_eq := by
    rw [← h.paths_eq]
    exact map_eq_of_outline (fun _ => rfl) houtline
  ids_eq := by
    have hids : nodes.map (·.id) = command.nodes.map (·.id) :=
      map_eq_of_outline (fun _ => rfl) houtline
    have hlength : nodes.length = command.nodes.length := by
      simpa only [List.length_map] using congrArg List.length houtline
    rw [hids, h.ids_eq, hlength]
  fits := by
    intro node hnode
    have hmem : node.outline ∈ command.nodes.map Node.outline := by
      rw [← houtline]
      exact List.mem_map_of_mem hnode
    obtain ⟨old, hold, heq⟩ := List.mem_map.mp hmem
    rw [← Node.fits_outline, ← heq, Node.fits_outline]
    exact h.fits old hold
  roots_eq := h.roots_eq

/-- A flattened branch keeps the name of its command. -/
theorem Branch.name_of_flatten {branch : Branch} {name : String} {reserved : List String}
    {command : Command} (h : branch.flatten name reserved = .ok command) : command.name = name := by
  obtain ⟨nodes, rfl, _⟩ := Branch.flatten_eq_ok h
  rfl

/-- A flattened command is laid out along the paths of its branch. -/
theorem Branch.laidOut_of_flatten {branch : Branch} {name : String} {reserved : List String}
    {command : Command} (h : branch.flatten name reserved = .ok command) :
    command.LaidOut branch.paths := by
  obtain ⟨nodes, rfl, houtline⟩ := Branch.flatten_eq_ok h
  exact (branch.laidOut_row name reserved).of_outline houtline

/-! ## The commands of a flattened tree -/

namespace CommandTree

variable {tree : CommandTree} {reserved : List String} {model : Model}

/-- A flattened tree has one command for each branch, in order. -/
theorem flatten_eq_ok (h : tree.flatten reserved = .ok model) :
    (tree.commands.mapM fun entry => Branch.flatten entry.2 entry.1 reserved) = .ok model.commands := by
  unfold flatten at h
  obtain ⟨commands, hcommands, heq⟩ := bind_eq_ok_iff.mp h
  cases heq
  exact hcommands

/-- The commands of the model are those of the tree, in their order. -/
theorem map_name_of_flatten (h : tree.flatten reserved = .ok model) :
    model.commands.map (·.name) = tree.commands.map (·.1) :=
  map_eq_of_mapM_eq_ok (fun _ _ => Branch.name_of_flatten) (flatten_eq_ok h)

/-- Every command of the model is flattened from a branch of the tree. -/
theorem exists_branch_of_flatten (h : tree.flatten reserved = .ok model) {command : Command}
    (hmem : command ∈ model.commands) :
    ∃ entry ∈ tree.commands, Branch.flatten entry.2 entry.1 reserved = .ok command :=
  exists_of_mem_of_mapM_eq_ok (flatten_eq_ok h) hmem

end CommandTree

end CommandDoc
