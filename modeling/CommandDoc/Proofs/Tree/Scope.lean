import Mathlib.Data.List.Induction
import CommandDoc.Proofs.Tree.Arena

/-!
# Scopes

The parameters of a command stand at paths: its own at the empty path, and those of a node at the path of
the node.  Seen from a node, the scopes above it are at the proper starts of its path.  Both passes over the
parameters find them by a walk along the parents; this module replaces the walk by the list of the paths, so
that what the passes do can be said without the numbers of nodes.

Main definitions:

- `IsAbove`: one path is a proper start of another.
- `pathsAbove`: the paths above a path, the nearest first.
- `Command.parametersAt`: the parameters of a command at a path.

Main results:

- Theorem `mem_pathsAbove`: the listed paths are exactly those above.
- Theorem `Command.LaidOut.scopesAbove_eq`: the scopes above a node are those at the paths above its path.
- Theorem `Command.LaidOut.parametersAbove_done`: while the nodes are completed one after another, those
  before a node are enough to find them.
-/

namespace CommandDoc

/-! ## Paths above a path -/

/-- A path is above another one if it is a proper start of it.  The empty path, which stands for the
command, is above all others. -/
def IsAbove (above path : List String) : Prop :=
  above <+: path ∧ above ≠ path

instance (above path : List String) : Decidable (IsAbove above path) :=
  inferInstanceAs (Decidable (above <+: path ∧ above ≠ path))

namespace IsAbove

variable {top above path : List String}

theorem trans (h : IsAbove top above) (h' : IsAbove above path) : IsAbove top path := by
  refine ⟨h.1.trans h'.1, ?_⟩
  rintro rfl
  exact h.2 (h.1.eq_of_length_le h'.1.length_le)

theorem ne_nil (h : IsAbove above path) : path ≠ [] := by
  rintro rfl
  exact h.2 (List.prefix_nil.mp h.1)

/-- A path above another one stands before it. -/
theorem lt (h : IsAbove above path) : above < path := by
  obtain ⟨⟨rest, rfl⟩, hne⟩ := h
  cases rest with
  | nil => exact absurd (List.append_nil above).symm hne
  | cons word rest => exact lt_append_cons above word rest

/-- The label of a path is shorter than those of the paths below it. -/
theorem length_pathLabel_lt (h : IsAbove above path) (command : String) :
    (pathLabel command above).length < (pathLabel command path).length := by
  have hcons : ∀ (first word : String) (rest : List String),
      (pathLabel first (word :: rest)).length = first.length + 1 + (pathLabel word rest).length := by
    intro first word rest
    rw [pathLabel, String.intercalate_cons_cons, String.length_append, String.length_append]
    rfl
  induction above generalizing path command with
  | nil =>
    cases path with
    | nil => exact absurd rfl h.2
    | cons word rest =>
      have hnil : pathLabel command [] = command := String.intercalate_singleton
      rw [hcons, hnil]
      omega
  | cons first above ih =>
    cases path with
    | nil => exact absurd rfl h.ne_nil
    | cons word path =>
      obtain ⟨hwhole, hne⟩ := h
      obtain ⟨rfl, hstart⟩ := List.cons_prefix_cons.mp hwhole
      have hlt := ih ⟨hstart, fun heq => hne (by rw [heq])⟩ first
      rw [hcons, hcons]
      omega

end IsAbove

/-- What stands above a longer path are the starts of the shorter one, and the command itself. -/
theorem isAbove_concat_iff {above front : List String} {word : String} :
    IsAbove above (front ++ [word]) ↔ above <+: front := by
  constructor
  · rintro ⟨hstart, hne⟩
    exact (List.prefix_concat_iff.mp hstart).resolve_left hne
  · intro hstart
    refine ⟨hstart.trans (List.prefix_append _ _), ?_⟩
    rintro rfl
    have hle := hstart.length_le
    rw [List.length_append, List.length_singleton] at hle
    omega

/-- Of two starts of one path, one is above the other unless they are equal. -/
theorem isAbove_trichotomy {p q path : List String} (hp : p <+: path) (hq : q <+: path) :
    IsAbove p q ∨ p = q ∨ IsAbove q p := by
  by_cases heq : p = q
  · exact Or.inr (Or.inl heq)
  · rcases List.prefix_or_prefix_of_prefix hp hq with hstart | hstart
    · exact Or.inl ⟨hstart, heq⟩
    · exact Or.inr (Or.inr ⟨hstart, Ne.symm heq⟩)

/-- The paths above a path, the nearest first and the empty one last. -/
def pathsAbove (path : List String) : List (List String) :=
  (starts path).dropLast.reverse ++ [[]]

/-- They are walked from the nearest to the command. -/
theorem pathsAbove_concat (front : List String) (word : String) :
    pathsAbove (front ++ [word]) = (starts front).reverse ++ [[]] := by
  rw [pathsAbove, starts_concat, List.dropLast_concat]

/-- Exactly the paths above a path are listed. -/
theorem mem_pathsAbove {above path : List String} (hne : path ≠ []) :
    above ∈ pathsAbove path ↔ IsAbove above path := by
  rw [← dropLast_concat_getLastD hne, pathsAbove_concat, isAbove_concat_iff, List.mem_append,
    List.mem_reverse, List.mem_singleton, mem_starts]
  constructor
  · rintro (⟨_, hstart⟩ | rfl)
    · exact hstart
    · exact List.nil_prefix
  · intro hstart
    by_cases hnil : above = []
    · exact Or.inr hnil
    · exact Or.inl ⟨hnil, hstart⟩

/-- Every path in the list is above those before it. -/
theorem pairwise_pathsAbove (path : List String) :
    (pathsAbove path).Pairwise fun near far => IsAbove far near := by
  have hstarts : ∀ front : List String,
      ((starts front).reverse ++ [[]]).Pairwise fun near far => IsAbove far near := by
    intro front
    induction front using List.reverseRecOn with
    | nil => simp [starts]
    | append_singleton front word ih =>
      rw [starts_concat, List.reverse_append, List.reverse_singleton, List.append_assoc]
      refine List.pairwise_cons.mpr ⟨?_, ih⟩
      intro far hfar
      rw [← pathsAbove_concat front word] at hfar
      exact (mem_pathsAbove (by simp)).mp hfar
  by_cases hnil : path = []
  · subst hnil
    exact hstarts []
  · rw [← dropLast_concat_getLastD hnil, pathsAbove_concat]
    exact hstarts _

/-- The labels of the paths above a path differ. -/
theorem nodup_pathLabel_pathsAbove (command : String) (path : List String) :
    ((pathsAbove path).map (pathLabel command)).Nodup := by
  refine List.Pairwise.map _ ?_ (pairwise_pathsAbove path)
  intro near far habove heq
  have hlt := habove.length_pathLabel_lt command
  rw [heq] at hlt
  exact Nat.lt_irrefl _ hlt

/-- In the list, the paths on the way down from one of them stand before it. -/
theorem mem_before_iff {above path : List String} {near far : List (List String)} (hne : path ≠ [])
    (hsplit : pathsAbove path = near ++ above :: far) {between : List String} :
    between ∈ near ↔ IsAbove above between ∧ IsAbove between path := by
  have hpairwise := pairwise_pathsAbove path
  rw [hsplit, List.pairwise_append, List.pairwise_cons] at hpairwise
  obtain ⟨-, ⟨hfar, -⟩, hnear⟩ := hpairwise
  rw [← mem_pathsAbove hne, hsplit, List.mem_append, List.mem_cons]
  constructor
  · intro hbetween
    exact ⟨hnear between hbetween above List.mem_cons_self, Or.inl hbetween⟩
  · rintro ⟨habove, hbetween | rfl | hbetween⟩
    · exact hbetween
    · exact absurd rfl habove.2
    · exact absurd (habove.trans (hfar between hbetween)).lt (List.lt_irrefl above)

/-! ## Parameters at paths -/

/-- The parameters of a command at a path: its own at the empty path, else those of the node there. -/
def Command.parametersAt (command : Command) (path : List String) : List Parameter :=
  if path.isEmpty then command.parameters
  else ((command.nodes.find? (·.path == path)).map (·.parameters)).getD []

theorem Command.parametersAt_nil (command : Command) : command.parametersAt [] = command.parameters := rfl

namespace Command.LaidOut

variable {command : Command} {paths : List (List String)}

/-- A node's parameters are found at its path. -/
theorem parametersAt_path (laid : command.LaidOut paths) (row : IsPathRow paths) {node : Node}
    (hnode : node ∈ command.nodes) : command.parametersAt node.path = node.parameters := by
  have hne := row.ne_nil _ (laid.path_mem hnode)
  have hfind : command.nodes.find? (·.path == node.path) = some node := by
    cases hother : command.nodes.find? (·.path == node.path) with
    | none => exact absurd (List.find?_eq_none.mp hother node hnode) (by simp)
    | some other =>
      have hpath : other.path = node.path := by simpa using List.find?_some hother
      rw [laid.eq_of_path_eq row (List.mem_of_find?_eq_some hother) hnode hpath]
  rw [parametersAt, if_neg (by simpa using hne), hfind]
  rfl

/-- The scopes above a node are those at the paths above its path, in that order. -/
theorem scopesAbove_eq (laid : command.LaidOut paths) (row : IsPathRow paths) {node : Node}
    (hnode : node ∈ command.nodes) :
    command.scopesAbove node
      = (pathsAbove node.path).map fun path => (pathLabel command.name path, command.parametersAt path) := by
  obtain ⟨-, hmem, hpaths⟩ := laid.climbs_ancestors row hnode
  have hscope : ∀ above ∈ command.ancestors node,
      (above.label, above.parameters)
        = (pathLabel command.name above.path, command.parametersAt above.path) := by
    intro above habove
    rw [laid.parametersAt_path row (hmem above habove), Node.label,
      (laid.fits above (hmem above habove)).command_eq]
  have hroot : pathLabel command.name [] = command.name := String.intercalate_singleton
  rw [scopesAbove, List.map_congr_left hscope, pathsAbove, ← hpaths, List.map_append, List.map_map,
    List.map_singleton, hroot, parametersAt_nil]
  rfl

/-- The parameters above a node are those at the paths above its own. -/
theorem parametersAbove_eq (laid : command.LaidOut paths) (row : IsPathRow paths) {node : Node}
    (hnode : node ∈ command.nodes) :
    command.parametersAbove node = (pathsAbove node.path).map command.parametersAt := by
  have hsnd : command.parametersAbove node = (command.scopesAbove node).map Prod.snd := by
    rw [parametersAbove, scopesAbove, List.map_append, List.map_map]
    rfl
  rw [hsnd, laid.scopesAbove_eq row hnode, List.map_map]
  rfl

/-! ## Scopes above a node of which only the nodes before it are there -/

theorem id_eq_of_node? (laid : command.LaidOut paths) {id : Nat} {node : Node}
    (h : command.node? id = some node) : node.id = id := by
  have hget : (command.nodes.map (·.id))[id]? = some node.id := by
    rw [List.getElem?_map, ← node?, h, Option.map_some]
  rw [laid.ids_eq, List.getElem?_eq_some_iff] at hget
  obtain ⟨_, heq⟩ := hget
  rw [List.getElem_range] at heq
  exact heq.symm

/-- As a parent stands before its node, a path has no more words than there are nodes up to its own. -/
theorem length_path_le (laid : command.LaidOut paths) (row : IsPathRow paths) {node : Node}
    (hnode : node ∈ command.nodes) : node.path.length ≤ node.id + 1 := by
  induction hid : node.id using Nat.strongRecOn generalizing node with
  | ind id ih =>
    by_cases hone : node.path.length = 1
    · omega
    · obtain ⟨above, habove, -, -, hlt, hpath⟩ := laid.exists_parent row hnode hone
      have hshort := ih above.id (by omega) habove rfl
      rw [hpath, List.length_dropLast] at hshort
      omega

end Command.LaidOut

/-- The walk from a node upwards has only one course. -/
theorem Command.Climbs.unique {command : Command} {node : Node} {walk other : List Node}
    (h : command.Climbs node walk) (h' : command.Climbs node other) : walk = other := by
  induction h generalizing other with
  | top hnone =>
    cases h' with
    | top _ => rfl
    | step hsome _ => rw [hnone] at hsome; cases hsome
  | step hsome _ ih =>
    cases h' with
    | top hnone => rw [hnone] at hsome; cases hsome
    | step hsome' rest =>
      rw [hsome] at hsome'
      cases hsome'
      rw [ih rest]

namespace Command.LaidOut

variable {command : Command} {paths : List (List String)}

/-- The walk up needs no more fuel than the path has words. -/
theorem ancestorsWithin_eq (laid : command.LaidOut paths) (row : IsPathRow paths) {node : Node}
    (hnode : node ∈ command.nodes) {fuel : Nat} (hfuel : node.path.length ≤ fuel + 1) :
    command.ancestorsWithin fuel node = command.ancestors node :=
  (laid.climbs_ancestorsWithin row hnode hfuel).1.unique (laid.climbs_ancestors row hnode).1

/-- A walk that stays among the first nodes needs no others. -/
theorem ancestorsWithin_done (laid : command.LaidOut paths) {done rest : List Node}
    (hnodes : command.nodes = done ++ rest) {fuel : Nat} {node : Node}
    (hbefore : ∀ above ∈ command.ancestorsWithin fuel node, above.id < done.length) :
    { command with nodes := done }.ancestorsWithin fuel node = command.ancestorsWithin fuel node := by
  induction fuel generalizing node with
  | zero => rfl
  | succ fuel ih =>
    rw [ancestorsWithin] at hbefore
    rw [ancestorsWithin, ancestorsWithin]
    cases hparent : command.parentOf? node with
    | none =>
      have hnone : { command with nodes := done }.parentOf? node = none := by
        rw [parentOf?, Option.bind_eq_none_iff] at hparent ⊢
        intro id hid
        have hlength := hparent id hid
        rw [node?, hnodes, List.getElem?_eq_none_iff, List.length_append] at hlength
        exact List.getElem?_eq_none (by show done.length ≤ id; omega)
      rw [hnone]
    | some parent =>
      rw [hparent] at hbefore
      have hsome : { command with nodes := done }.parentOf? node = some parent := by
        rw [parentOf?, Option.bind_eq_some_iff] at hparent ⊢
        obtain ⟨id, hid, hget⟩ := hparent
        have hlt : id < done.length := by
          rw [← laid.id_eq_of_node? hget]
          exact hbefore parent List.mem_cons_self
        rw [node?, hnodes, List.getElem?_append_left hlt] at hget
        exact ⟨id, hid, hget⟩
      rw [hsome]
      exact congrArg (parent :: ·) (ih fun above habove => hbefore above (List.mem_cons_of_mem _ habove))

/-- A node's id counts the nodes before it. -/
theorem id_eq_length (laid : command.LaidOut paths) {done rest : List Node} {node : Node}
    (hnodes : command.nodes = done ++ node :: rest) : node.id = done.length := by
  apply laid.id_eq_of_node?
  rw [node?, hnodes, List.getElem?_append_right (Nat.le_refl _), Nat.sub_self]
  rfl

/-- The nodes whose paths stand before that of a node are among the nodes before it. -/
theorem mem_done_of_path_lt (laid : command.LaidOut paths) (row : IsPathRow paths)
    {done rest : List Node} {node other : Node} (hnodes : command.nodes = done ++ node :: rest)
    (hother : other ∈ command.nodes) (hlt : other.path < node.path) : other ∈ done := by
  have hnode : node ∈ command.nodes := by
    rw [hnodes]
    exact List.mem_append_right _ List.mem_cons_self
  have hid := laid.id_lt_of_path_lt row hother hnode hlt
  rw [laid.id_eq_length hnodes] at hid
  have hget := laid.node?_id hother
  rw [node?, hnodes, List.getElem?_append_left hid] at hget
  exact List.mem_of_getElem? hget

/-- The scopes above a node, found among the nodes before it alone. -/
theorem parametersAbove_done (laid : command.LaidOut paths) (row : IsPathRow paths)
    {done rest : List Node} {node : Node} (hnodes : command.nodes = done ++ node :: rest) :
    { command with nodes := done }.parametersAbove node
      = (pathsAbove node.path).map command.parametersAt := by
  have hnode : node ∈ command.nodes := by
    rw [hnodes]
    exact List.mem_append_right _ List.mem_cons_self
  have hid := laid.id_eq_length hnodes
  have hfuel : command.ancestorsWithin done.length node = command.ancestors node := by
    apply laid.ancestorsWithin_eq row hnode
    rw [← hid]
    exact laid.length_path_le row hnode
  obtain ⟨-, hmem, hpaths⟩ := laid.climbs_ancestors row hnode
  have hbefore : ∀ above ∈ command.ancestorsWithin done.length node, above.id < done.length := by
    intro above habove
    rw [hfuel] at habove
    have hpath : above.path ∈ pathsAbove node.path := by
      rw [pathsAbove, ← hpaths]
      exact List.mem_append_left _ (List.mem_map_of_mem habove)
    have hlt := ((mem_pathsAbove (row.ne_nil _ (laid.path_mem hnode))).mp hpath).lt
    rw [← hid]
    exact laid.id_lt_of_path_lt row (hmem above habove) hnode hlt
  have hancestors : { command with nodes := done }.ancestors node = command.ancestors node := by
    rw [ancestors, laid.ancestorsWithin_done hnodes hbefore, hfuel]
  rw [← laid.parametersAbove_eq row hnode, parametersAbove, parametersAbove, hancestors]

end Command.LaidOut

/-! ## What is declared at a path -/

namespace Branch

variable {branch : Branch}

/-- The parameters that are declared at a path. -/
def parametersAt (branch : Branch) (path : List String) : List Parameter :=
  ((branch.declared? path).map (·.parameters)).getD []

theorem declared?_of_mem (row : IsPathRow branch.paths) {path : List String} {payload : Option Declaration}
    (hmem : (path, payload) ∈ branch.nodes) : branch.declared? path = payload := by
  have hne : path ≠ [] := row.ne_nil path (List.mem_map.mpr ⟨_, hmem, rfl⟩)
  rw [declared?, if_neg (by simpa using hne), Ordered.find?_eq_some_of_mem row.nodup hmem]
  rfl

/-- Parameters are declared at the paths of a branch only. -/
theorem path_mem_of_mem_parametersAt {path : List String} (hne : path ≠ []) {p : Parameter}
    (hp : p ∈ branch.parametersAt path) : path ∈ branch.paths := by
  rw [parametersAt, declared?, if_neg (by simpa using hne)] at hp
  cases hfind : Ordered.find? path branch.nodes with
  | none =>
    rw [hfind] at hp
    cases hp
  | some payload => exact List.mem_map.mpr ⟨_, Ordered.mem_of_find?_eq_some hfind, rfl⟩

/-- A node of the row of a branch shows what is declared at its path. -/
theorem eq_pathNode_of_mem_row (row : IsPathRow branch.paths) {name : String} {reserved : List String}
    {node : Node} (hnode : node ∈ (branch.row name reserved).nodes) :
    node = pathNode name branch.paths node.id node.structName node.path (branch.declared? node.path) := by
  obtain ⟨id, structName, path, payload, hmem, rfl⟩ := exists_of_mem_nodeRow hnode
  have hdeclared : branch.declared? path = payload := declared?_of_mem row hmem
  simp only [pathNode, hdeclared]

end Branch

/-! ## Trees after any run of insertions -/

namespace CommandTree

variable {ds : List Declaration} {entry : String × Branch}

/-- The paths of every branch that insertions build are in ascending order and hold all their starts. -/
theorem isPathRow_of_mem (h : entry ∈ (({} : CommandTree).insertEach ds).commands) :
    IsPathRow entry.2.paths := by
  rw [insertEach_empty] at h
  rw [eq_of_mem_commands_ofDeclarations h, Branch.paths_ofDeclarations]
  exact isPathRow_startsOf _

/-- A command of a flattened tree is the flattened branch of its name. -/
theorem flatten_branch_name {reserved : List String} {model : Model}
    (h : (({} : CommandTree).insertEach ds).flatten reserved = .ok model) {command : Command}
    (hcommand : command ∈ model.commands) :
    IsPathRow ((({} : CommandTree).insertEach ds).branch command.name).paths ∧
      ((({} : CommandTree).insertEach ds).branch command.name).flatten command.name reserved
        = .ok command := by
  obtain ⟨entry, hentry, hflatten⟩ := exists_branch_of_flatten h hcommand
  have hbranch : (({} : CommandTree).insertEach ds).branch entry.1 = entry.2 := by
    rw [insertEach_empty] at hentry ⊢
    rw [branch_ofDeclarations, eq_of_mem_commands_ofDeclarations hentry]
  rw [Branch.name_of_flatten hflatten, hbranch]
  exact ⟨isPathRow_of_mem hentry, hflatten⟩

end CommandTree

end CommandDoc
