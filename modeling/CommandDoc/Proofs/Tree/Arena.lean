import Mathlib.Data.List.Nodup
import CommandDoc.Proofs.Tree.Contents
import CommandDoc.Proofs.Tree.Row

/-!
# The arena of a flattened command

The nodes of a flattened command are numbered by their places and refer to each other by these numbers.
This module shows that the references form the tree of the inserted paths: a node's parent stands before it
and has its path without the last word, children are exactly the nodes that name their parent, siblings
stand in the order of their names, and the walk to the parents ends.

Main results:

- Definition `Command.IsArena`: what holds of the nodes of a command, in terms of the inserted paths.
- Theorem `Command.LaidOut.climbs_ancestors`: the walk from a node upwards ends, at the proper starts of its
  path.
- Theorem `arranges_of_flatten`: after any run of insertions a flattened tree has one such arena for each
  command, in the order of the names.
-/

namespace CommandDoc

/-! ## Paths -/

/-- A path stands before its extensions. -/
theorem lt_append_cons (path : List String) (word : String) (rest : List String) :
    path < path ++ word :: rest := by
  induction path with
  | nil => exact List.nil_lt_cons word rest
  | cons first path ih => exact List.cons_lt_cons_iff.mpr (Or.inr ⟨rfl, ih⟩)

/-- Two siblings are ordered by their own words. -/
theorem concat_lt_concat_iff {path : List String} {v w : String} :
    path ++ [v] < path ++ [w] ↔ v < w := by
  induction path with
  | nil => simp [List.cons_lt_cons_iff]
  | cons first rest ih =>
    rw [List.cons_append, List.cons_append, List.cons_lt_cons_iff, ih]
    constructor
    · rintro (hlt | ⟨_, hlt⟩)
      · exact absurd hlt (String.lt_irrefl first)
      · exact hlt
    · exact fun hlt => Or.inr ⟨rfl, hlt⟩

/-- A path is its parent's path and its own word. -/
theorem dropLast_concat_getLastD {path : List String} (hne : path ≠ []) :
    path.dropLast ++ [path.getLastD ""] = path := by
  rw [List.getLastD_eq_getLast?, List.getLast?_eq_some_getLast hne, Option.getD_some]
  exact List.dropLast_append_getLast hne

/-- A longer path starts with what the shorter one starts with, and with itself. -/
theorem starts_concat (path : List String) (word : String) :
    starts (path ++ [word]) = starts path ++ [path ++ [word]] := by
  induction path with
  | nil => rfl
  | cons first rest ih => simp [starts, ih]

/-- A list of paths in which every start of a path stands before it. -/
structure IsPathRow (paths : List (List String)) : Prop where
  /-- The paths stand in ascending order. -/
  ascending : paths.Pairwise (· < ·)
  /-- Every path has a word. -/
  ne_nil : ∀ path ∈ paths, path ≠ []
  /-- Every start of a path is there too. -/
  closed : ∀ path ∈ paths, ∀ start, start ≠ [] → start <+: path → start ∈ paths

namespace IsPathRow

variable {paths : List (List String)}

/-- A row of paths lists none twice. -/
theorem nodup (row : IsPathRow paths) : paths.Nodup := by
  refine row.ascending.imp ?_
  rintro path _ hlt rfl
  exact List.lt_irrefl path hlt

/-- The front of a path is there exactly if the path has more than one word. -/
theorem dropLast_mem_iff (row : IsPathRow paths) {path : List String} (hmem : path ∈ paths) :
    path.dropLast ∈ paths ↔ path.length ≠ 1 := by
  have hne := row.ne_nil path hmem
  have hpos : 0 < path.length := List.length_pos_of_ne_nil hne
  constructor
  · intro hfront hone
    have hnil : path.dropLast = [] := List.eq_nil_of_length_eq_zero (by simp [hone])
    exact row.ne_nil _ hfront hnil
  · intro hlong
    refine row.closed path hmem _ ?_ (List.dropLast_prefix path)
    intro hnil
    have hzero := congrArg List.length hnil
    simp only [List.length_dropLast, List.length_nil] at hzero
    omega

/-- No path of a row is longer than the row: all its starts stand in it. -/
theorem length_le (row : IsPathRow paths) {path : List String} (hmem : path ∈ paths) :
    path.length ≤ paths.length := by
  have hlength : ∀ p : List String, (starts p).length = p.length := by
    intro p
    induction p with
    | nil => rfl
    | cons word rest ih => simp [starts, ih]
  have hnodup : ∀ p : List String, (starts p).Nodup := by
    intro p
    induction p with
    | nil => exact List.nodup_nil
    | cons word rest ih =>
      rw [starts, List.nodup_cons]
      refine ⟨?_, List.Pairwise.map _ (fun _ _ hne heq => hne (List.cons.inj heq).2) ih⟩
      rw [List.mem_map]
      rintro ⟨q, hq, heq⟩
      exact (mem_starts.mp hq).1 (List.cons.inj heq).2
  rw [← hlength path]
  refine (hnodup path).length_le_of_subset ?_
  intro start hstart
  exact row.closed path hmem start (mem_starts.mp hstart).1 (mem_starts.mp hstart).2

end IsPathRow

/-- The starts of the paths of declarations are such a list. -/
theorem isPathRow_startsOf (ds : List Declaration) : IsPathRow (Branch.startsOf ds) where
  ascending := (Branch.pairwise_startsOf ds).imp of_decide_eq_true
  ne_nil := fun _ hmem => (Branch.mem_startsOf.mp hmem).1
  closed := by
    intro path hmem start hne hstart
    obtain ⟨_, d, hd, hpath⟩ := Branch.mem_startsOf.mp hmem
    exact Branch.mem_startsOf.mpr ⟨hne, d, hd, hstart.trans hpath⟩

/-! ## Numbers, parents and children -/

namespace Command.LaidOut

variable {command : Command} {paths : List (List String)}

/-- A node is found by its id. -/
theorem node?_id (laid : command.LaidOut paths) {node : Node} (hmem : node ∈ command.nodes) :
    command.node? node.id = some node := by
  obtain ⟨i, hi, rfl⟩ := List.getElem_of_mem hmem
  have hid : command.nodes[i].id = i := by
    have hget : (command.nodes.map (·.id))[i]? = some i := by
      rw [laid.ids_eq, List.getElem?_range hi]
    rw [List.getElem?_map, List.getElem?_eq_getElem hi] at hget
    exact Option.some.inj hget
  rw [node?, hid, List.getElem?_eq_getElem hi]

/-- A node stands in the arena where its path stands in the row. -/
theorem getElem?_paths (laid : command.LaidOut paths) {node : Node} (hmem : node ∈ command.nodes) :
    paths[node.id]? = some node.path := by
  have hnode := laid.node?_id hmem
  unfold node? at hnode
  rw [← laid.paths_eq, List.getElem?_map, hnode, Option.map_some]

/-- The path of a node is in the row. -/
theorem path_mem (laid : command.LaidOut paths) {node : Node} (hmem : node ∈ command.nodes) :
    node.path ∈ paths := by
  rw [← laid.paths_eq]
  exact List.mem_map_of_mem hmem

/-- Every path of the row has a node. -/
theorem exists_node (laid : command.LaidOut paths) {path : List String} (hmem : path ∈ paths) :
    ∃ node ∈ command.nodes, node.path = path := by
  rw [← laid.paths_eq] at hmem
  exact List.mem_map.mp hmem

/-- Two nodes of one path are the same. -/
theorem eq_of_path_eq (laid : command.LaidOut paths) (row : IsPathRow paths) {node other : Node}
    (hnode : node ∈ command.nodes) (hother : other ∈ command.nodes) (heq : node.path = other.path) :
    node = other := by
  have hnodup : (command.nodes.map (·.path)).Nodup := by
    rw [laid.paths_eq]
    exact row.nodup
  exact List.inj_on_of_nodup_map hnodup hnode hother heq

/-- The ids of nodes are in the order of their paths. -/
theorem id_lt_of_path_lt (laid : command.LaidOut paths) (row : IsPathRow paths) {node other : Node}
    (hnode : node ∈ command.nodes) (hother : other ∈ command.nodes) (hlt : node.path < other.path) :
    node.id < other.id := by
  obtain ⟨hi, hpathi⟩ := List.getElem?_eq_some_iff.mp (laid.getElem?_paths hnode)
  obtain ⟨hj, hpathj⟩ := List.getElem?_eq_some_iff.mp (laid.getElem?_paths hother)
  rcases Nat.lt_trichotomy node.id other.id with h | h | h
  · exact h
  · -- Equal numbers would mean equal paths.
    have heq : node.path = other.path := by
      rw [← hpathi, ← hpathj]
      congr 1
    rw [heq] at hlt
    exact absurd hlt (List.lt_irrefl _)
  · have hgt := List.pairwise_iff_getElem.mp row.ascending other.id node.id hj hi h
    rw [hpathi, hpathj] at hgt
    exact absurd (List.lt_trans hlt hgt) (List.lt_irrefl _)

/-- The parent of a node is the node whose path has one word less. -/
theorem parent_eq_some_iff (laid : command.LaidOut paths) (row : IsPathRow paths) {node above : Node}
    (hnode : node ∈ command.nodes) (habove : above ∈ command.nodes) :
    node.parent = some above.id ↔ above.path = node.path.dropLast := by
  rw [(laid.fits node hnode).parent_eq, parentId?]
  have hpath := laid.getElem?_paths habove
  constructor
  · intro hidx
    obtain ⟨hlt, heq, _⟩ := List.idxOf?_eq_some_iff.mp hidx
    rw [List.getElem?_eq_getElem hlt, heq] at hpath
    exact (Option.some.inj hpath).symm
  · intro heq
    obtain ⟨hlt, hget⟩ := List.getElem?_eq_some_iff.mp hpath
    refine List.idxOf?_eq_some_iff.mpr ⟨hlt, hget.trans heq, ?_⟩
    intro j hj hsame
    have hne := List.pairwise_iff_getElem.mp row.nodup j above.id (Nat.lt_trans hj hlt) hlt hj
    exact hne (hsame.trans (heq.symm.trans hget.symm))

/-- The nodes without a parent are those of one word. -/
theorem parent_eq_none_iff (laid : command.LaidOut paths) (row : IsPathRow paths) {node : Node}
    (hnode : node ∈ command.nodes) : node.parent = none ↔ node.path.length = 1 := by
  rw [(laid.fits node hnode).parent_eq, parentId?, List.idxOf?_eq_none_iff,
    row.dropLast_mem_iff (laid.path_mem hnode)]
  exact Decidable.not_not

/-- A node with a longer path has a parent, which stands before it. -/
theorem exists_parent (laid : command.LaidOut paths) (row : IsPathRow paths) {node : Node}
    (hnode : node ∈ command.nodes) (hlong : node.path.length ≠ 1) :
    ∃ above ∈ command.nodes, node.parent = some above.id ∧ command.parentOf? node = some above ∧
      above.id < node.id ∧ above.path = node.path.dropLast := by
  have hfront := (row.dropLast_mem_iff (laid.path_mem hnode)).mpr hlong
  obtain ⟨above, habove, hpath⟩ := laid.exists_node hfront
  have hparent := (laid.parent_eq_some_iff row hnode habove).mpr hpath
  have hlt : above.path < node.path := by
    rw [hpath]
    conv_rhs => rw [← dropLast_concat_getLastD (row.ne_nil _ (laid.path_mem hnode))]
    exact lt_append_cons _ _ []
  refine ⟨above, habove, hparent, ?_, laid.id_lt_of_path_lt row habove hnode hlt, hpath⟩
  rw [parentOf?, hparent, Option.bind_some, laid.node?_id habove]

/-- The numbers of the paths below a path are those of the nodes below it, in order. -/
theorem childIds_eq (laid : command.LaidOut paths) (path : List String) :
    childIds paths path
      = (command.nodes.filter fun child => child.path.dropLast == path).map (·.id) := by
  have hzip : paths.zipIdx = command.nodes.map fun node => (node.path, node.id) := by
    have hlength : paths.length = command.nodes.length := by
      rw [← laid.paths_eq, List.length_map]
    rw [List.zipIdx_eq_zip_range', hlength, ← List.range_eq_range', ← laid.ids_eq]
    conv_lhs => rw [← laid.paths_eq]
    rw [List.zip_map']
  rw [childIds, hzip, List.filterMap_map, ← List.filterMap_eq_map, List.filterMap_filter]
  rfl

/-- Nodes are found again by their ids. -/
theorem nodesAt_map_id (laid : command.LaidOut paths) {nodes : List Node}
    (hsub : ∀ node ∈ nodes, node ∈ command.nodes) : command.nodesAt (nodes.map (·.id)) = nodes := by
  rw [nodesAt, List.filterMap_map]
  conv_rhs => rw [← List.filterMap_some (l := nodes)]
  apply List.filterMap_congr
  intro node hnode
  exact laid.node?_id (hsub node hnode)

/-- The nodes directly below a command are those whose paths have one word. -/
theorem childNodes_eq (laid : command.LaidOut paths) :
    command.childNodes = command.nodes.filter fun child => child.path.dropLast == [] := by
  rw [childNodes, laid.roots_eq, laid.childIds_eq]
  exact laid.nodesAt_map_id fun child hchild => List.mem_of_mem_filter hchild

/-- The nodes directly below a node are those whose paths are one word longer. -/
theorem childNodesOf_eq (laid : command.LaidOut paths) {node : Node} (hnode : node ∈ command.nodes) :
    command.childNodesOf node = command.nodes.filter fun child => child.path.dropLast == node.path := by
  rw [childNodesOf, (laid.fits node hnode).children_eq, laid.childIds_eq]
  exact laid.nodesAt_map_id fun child hchild => List.mem_of_mem_filter hchild

/-- The names of the nodes below a path stand in ascending order. -/
theorem pairwise_name_of_dropLast (laid : command.LaidOut paths) (row : IsPathRow paths)
    (path : List String) :
    ((command.nodes.filter fun child => child.path.dropLast == path).map (·.name)).Pairwise
      (· < ·) := by
  have hpaths : command.nodes.Pairwise fun a b => a.path < b.path := by
    rw [← List.pairwise_map (f := fun node : Node => node.path), laid.paths_eq]
    exact row.ascending
  have hextend : ∀ child ∈ command.nodes, child.path.dropLast = path →
      child.path = path ++ [child.name] := by
    intro child hchild hfront
    rw [(laid.fits child hchild).name_eq, ← hfront]
    exact (dropLast_concat_getLastD (row.ne_nil _ (laid.path_mem hchild))).symm
  rw [List.pairwise_map, List.pairwise_filter]
  refine hpaths.imp_of_mem ?_
  intro a b ha hb hlt hfronta hfrontb
  rw [hextend a ha (by simpa using hfronta), hextend b hb (by simpa using hfrontb)] at hlt
  exact concat_lt_concat_iff.mp hlt

/-- The nodes that name a node as their parent are those whose paths are one word longer. -/
theorem filter_parent (laid : command.LaidOut paths) (row : IsPathRow paths) {node : Node}
    (hnode : node ∈ command.nodes) :
    (command.nodes.filter fun child => child.parent == some node.id)
      = command.nodes.filter fun child => child.path.dropLast == node.path := by
  apply List.filter_congr
  intro child hchild
  rw [Bool.eq_iff_iff, beq_iff_eq, beq_iff_eq, laid.parent_eq_some_iff row hchild hnode, eq_comm]

/-- The nodes without a parent are those whose paths have one word. -/
theorem filter_no_parent (laid : command.LaidOut paths) (row : IsPathRow paths) :
    (command.nodes.filter fun child => child.parent == none)
      = command.nodes.filter fun child => child.path.dropLast == [] := by
  apply List.filter_congr
  intro child hchild
  have hpos := List.length_pos_of_ne_nil (row.ne_nil _ (laid.path_mem hchild))
  rw [Bool.eq_iff_iff, beq_iff_eq, beq_iff_eq, laid.parent_eq_none_iff row hchild,
    ← List.length_eq_zero_iff, List.length_dropLast]
  omega

end Command.LaidOut

/-! ## The walk upwards -/

/-- The walk from a node to its parent, from there to the next, and so on, ends behind these nodes. -/
inductive Command.Climbs (command : Command) : Node → List Node → Prop where
  /-- A node without a parent ends the walk. -/
  | top {node : Node} (h : command.parentOf? node = none) : Climbs command node []
  /-- A parent is on the way, and the walk goes on from it. -/
  | step {node parent : Node} {above : List Node} (h : command.parentOf? node = some parent)
      (rest : Climbs command parent above) : Climbs command node (parent :: above)

namespace Command.LaidOut

variable {command : Command} {paths : List (List String)}

/-- With one step for each word of the path but the first, the walk upwards ends, at the proper starts of
the path, the longest first. -/
theorem climbs_ancestorsWithin (laid : command.LaidOut paths) (row : IsPathRow paths) {fuel : Nat}
    {node : Node} (hnode : node ∈ command.nodes) (hfuel : node.path.length ≤ fuel + 1) :
    command.Climbs node (command.ancestorsWithin fuel node) ∧
      (∀ above ∈ command.ancestorsWithin fuel node, above ∈ command.nodes) ∧
        (command.ancestorsWithin fuel node).map (·.path) = (starts node.path).dropLast.reverse := by
  have hsplit := dropLast_concat_getLastD (row.ne_nil _ (laid.path_mem hnode))
  have hstarts : (starts node.path).dropLast = starts node.path.dropLast := by
    conv_lhs => rw [← hsplit, starts_concat]
    exact List.dropLast_concat
  induction fuel generalizing node with
  | zero =>
    have hpos := List.length_pos_of_ne_nil (row.ne_nil _ (laid.path_mem hnode))
    have hnone := (laid.parent_eq_none_iff row hnode).mpr (by omega)
    have hnil : node.path.dropLast = [] :=
      List.eq_nil_of_length_eq_zero (by rw [List.length_dropLast]; omega)
    refine ⟨.top (by rw [parentOf?, hnone]; rfl), by simp [ancestorsWithin], ?_⟩
    rw [hstarts, hnil]
    rfl
  | succ fuel ih =>
    rw [ancestorsWithin]
    by_cases hone : node.path.length = 1
    · have hparent : command.parentOf? node = none := by
        rw [parentOf?, (laid.parent_eq_none_iff row hnode).mpr hone]
        rfl
      have hnil : node.path.dropLast = [] :=
        List.eq_nil_of_length_eq_zero (by rw [List.length_dropLast, hone])
      rw [hparent]
      refine ⟨.top hparent, by simp, ?_⟩
      rw [hstarts, hnil]
      rfl
    · obtain ⟨above, habove, _, hparent, _, hpath⟩ := laid.exists_parent row hnode hone
      have hshort : above.path.length ≤ fuel + 1 := by
        rw [hpath, List.length_dropLast]
        omega
      have hsplit' := dropLast_concat_getLastD (row.ne_nil _ (laid.path_mem habove))
      have hstarts' : starts above.path = starts above.path.dropLast ++ [above.path] := by
        conv_lhs => rw [← hsplit', starts_concat, hsplit']
      obtain ⟨hclimbs, hmem, hpaths⟩ := ih habove hshort hsplit' (by
        rw [hstarts', List.dropLast_concat])
      rw [hparent]
      refine ⟨.step hparent hclimbs, ?_, ?_⟩
      · intro other hother
        rcases List.mem_cons.mp hother with rfl | hother
        · exact habove
        · exact hmem other hother
      · rw [List.map_cons, hpaths, hstarts, ← hpath, hstarts', List.dropLast_concat,
          List.reverse_append]
        rfl

/-- The walk from a node upwards ends, at the proper starts of its path, the longest first. -/
theorem climbs_ancestors (laid : command.LaidOut paths) (row : IsPathRow paths) {node : Node}
    (hnode : node ∈ command.nodes) :
    command.Climbs node (command.ancestors node) ∧
      (∀ above ∈ command.ancestors node, above ∈ command.nodes) ∧
        (command.ancestors node).map (·.path) = (starts node.path).dropLast.reverse := by
  apply laid.climbs_ancestorsWithin row hnode
  have hlength := row.length_le (laid.path_mem hnode)
  rw [← laid.paths_eq, List.length_map] at hlength
  omega

end Command.LaidOut

/-! ## Arenas -/

/-- The nodes of a command are the tree of the inserted paths. -/
structure Command.IsArena (command : Command) (inserted : List (List String)) : Prop where
  /-- The paths stand in ascending order, word by word, a path before its extensions. -/
  ascending : (command.nodes.map (·.path)).Pairwise (· < ·)
  /-- They are the prefixes of the inserted paths that have a word. -/
  mem_paths : ∀ path, path ∈ command.nodes.map (·.path) ↔
    path ≠ [] ∧ ∃ whole ∈ inserted, path <+: whole
  /-- A node's number is its place. -/
  ids : command.nodes.map (·.id) = List.range command.nodes.length
  /-- A node's name is the last word of its path. -/
  name : ∀ node ∈ command.nodes, node.path = node.path.dropLast ++ [node.name]
  /-- A node whose path is one word has no parent. -/
  no_parent : ∀ node ∈ command.nodes, node.path.length = 1 → node.parent = none
  /-- The parent of another node stands before it, at the path without the last word. -/
  parent : ∀ node ∈ command.nodes, node.path.length ≠ 1 →
    ∃ above ∈ command.nodes, node.parent = some above.id ∧ above.id < node.id ∧
      above.path = node.path.dropLast
  /-- A node's children are the nodes that name it as their parent. -/
  children : ∀ node ∈ command.nodes, command.childNodesOf node
    = command.nodes.filter (fun child => child.parent == some node.id) ∧
      node.children = (command.childNodesOf node).map (·.id)
  /-- They stand in the order of their names, which differ. -/
  children_names : ∀ node ∈ command.nodes,
    ((command.childNodesOf node).map (·.name)).Pairwise (· < ·)
  /-- The command's children are the nodes without a parent. -/
  roots : command.childNodes = command.nodes.filter (fun child => child.parent == none) ∧
    command.children = command.childNodes.map (·.id)
  /-- They stand in the order of their names, which differ. -/
  roots_names : (command.childNodes.map (·.name)).Pairwise (· < ·)
  /-- The walk from a node upwards ends, behind the nodes above it. -/
  climbs : ∀ node ∈ command.nodes, command.Climbs node (command.ancestors node) ∧
    ∀ above ∈ command.ancestors node, above ∈ command.nodes
  /-- They are at the proper prefixes of its path that have a word, the longest first. -/
  ancestors : ∀ node ∈ command.nodes,
    (command.ancestors node).map (·.path) = (starts node.path).dropLast.reverse

/-- A layout along the starts of the inserted paths is an arena. -/
theorem Command.LaidOut.isArena {command : Command} {paths inserted : List (List String)}
    (laid : command.LaidOut paths) (row : IsPathRow paths)
    (hmem : ∀ path, path ∈ paths ↔ path ≠ [] ∧ ∃ whole ∈ inserted, path <+: whole) :
    command.IsArena inserted := by
  have hchildren : ∀ node ∈ command.nodes, node.children
      = (command.nodes.filter fun child => child.parent == some node.id).map (·.id) := by
    intro node hnode
    rw [(laid.fits node hnode).children_eq, laid.childIds_eq, laid.filter_parent row hnode]
  have hroots : command.children
      = (command.nodes.filter fun child => child.parent == none).map (·.id) := by
    rw [laid.roots_eq, laid.childIds_eq, laid.filter_no_parent row]
  have hchildNodes : ∀ node ∈ command.nodes, command.childNodesOf node
      = command.nodes.filter fun child => child.parent == some node.id := by
    intro node hnode
    rw [laid.childNodesOf_eq hnode, laid.filter_parent row hnode]
  have hrootNodes : command.childNodes
      = command.nodes.filter fun child => child.parent == none := by
    rw [laid.childNodes_eq, laid.filter_no_parent row]
  refine
    { ascending := ?_, mem_paths := ?_, ids := laid.ids_eq, name := ?_, no_parent := ?_, parent := ?_
      children := ?_, children_names := ?_, roots := ?_, roots_names := ?_, climbs := ?_
      ancestors := fun node hnode => (laid.climbs_ancestors row hnode).2.2 }
  · rw [laid.paths_eq]
    exact row.ascending
  · rw [laid.paths_eq]
    exact hmem
  · intro node hnode
    rw [(laid.fits node hnode).name_eq]
    exact (dropLast_concat_getLastD (row.ne_nil _ (laid.path_mem hnode))).symm
  · intro node hnode hone
    exact (laid.parent_eq_none_iff row hnode).mpr hone
  · intro node hnode hlong
    obtain ⟨above, habove, hparent, _, hlt, hpath⟩ := laid.exists_parent row hnode hlong
    exact ⟨above, habove, hparent, hlt, hpath⟩
  · intro node hnode
    refine ⟨hchildNodes node hnode, ?_⟩
    rw [hchildNodes node hnode, hchildren node hnode]
  · intro node hnode
    rw [hchildNodes node hnode, laid.filter_parent row hnode]
    exact laid.pairwise_name_of_dropLast row node.path
  · refine ⟨hrootNodes, ?_⟩
    rw [hrootNodes, hroots]
  · rw [hrootNodes, laid.filter_no_parent row]
    exact laid.pairwise_name_of_dropLast row []
  · intro node hnode
    obtain ⟨hclimbs, habove, _⟩ := laid.climbs_ancestors row hnode
    exact ⟨hclimbs, habove⟩

/-! ## Flattened trees -/

/-- The paths of a branch are the starts of its declarations. -/
theorem Branch.paths_ofDeclarations (ds : List Declaration) :
    (Branch.ofDeclarations ds).paths = Branch.startsOf ds := by
  rw [Branch.paths, Branch.ofDeclarations, List.map_map]
  exact List.map_id _

/-- The commands of a model are those of the declarations, each with the arena of its paths. -/
structure Model.Arranges (model : Model) (ds : List Declaration) : Prop where
  /-- The commands stand in the order of their names, which differ. -/
  ascending : (model.commands.map (·.name)).Pairwise (· < ·)
  /-- There is one for each command that something is declared of. -/
  mem_names : ∀ name, name ∈ model.commands.map (·.name) ↔ ∃ d ∈ ds, d.command = name
  /-- The nodes of each are the tree of its paths. -/
  arena : ∀ command ∈ model.commands,
    command.IsArena ((declarationsOf ds command.name).map (·.path))

/-- After any run of insertions, accepted or refused, a tree that can be flattened gives a model that
arranges the declarations offered. -/
theorem arranges_of_flatten {ds : List Declaration} {reserved : List String} {model : Model}
    (h : (({} : CommandTree).insertEach ds).flatten reserved = .ok model) : model.Arranges ds := by
  rw [CommandTree.insertEach_empty] at h
  have hnames := CommandTree.map_name_of_flatten h
  rw [CommandTree.map_fst_commands_ofDeclarations] at hnames
  refine ⟨?_, ?_, ?_⟩
  · rw [hnames]
    exact (Ordered.pairwise_sortDistinct Ordered.stringBefore_strictOrder _).imp of_decide_eq_true
  · intro name
    rw [hnames, Ordered.sortStrings, Ordered.mem_sortDistinct Ordered.stringBefore_strictOrder,
      List.mem_map]
  · intro command hcommand
    obtain ⟨entry, hentry, hflatten⟩ := CommandTree.exists_branch_of_flatten h hcommand
    rw [CommandTree.eq_of_mem_commands_ofDeclarations hentry] at hflatten
    rw [Branch.name_of_flatten hflatten]
    have laid := Branch.laidOut_of_flatten hflatten
    rw [Branch.paths_ofDeclarations] at laid
    refine laid.isArena (isPathRow_startsOf _) fun path => ?_
    rw [Branch.mem_startsOf]
    simp only [List.mem_map, exists_exists_and_eq_and]

/-- A declaration without parameters. -/
def Declaration.plain (command : String) (path : List String) (function : String) : Declaration where
  command := command
  path := path
  binding :=
    { name := function, package := "example.com/app", file := "main.go", parameters := [], returns := {} }

/-- Declarations of two commands.  A deep path is declared before one that it goes through, nothing is
declared at another one, and the last declaration is refused. -/
def sampleDeclarations : List Declaration :=
  [.plain "app" ["remote", "branch", "add"] "Add", .plain "tool" [] "Tool",
    .plain "app" ["remote"] "Remote", .plain "app" ["list"] "List", .plain "app" ["remote"] "Again"]

/-- The declarations can be flattened, and the model arranges them. -/
theorem arranges_of_flatten_sampleDeclarations :
    ∃ model, (({} : CommandTree).insertEach sampleDeclarations).flatten ["Remote"] = .ok model ∧
      model.Arranges sampleDeclarations := by
  have hok : ((({} : CommandTree).insertEach sampleDeclarations).flatten ["Remote"]).isOk = true := by
    decide +kernel
  obtain ⟨model, hmodel⟩ := exists_eq_ok_of_isOk hok
  exact ⟨model, hmodel, arranges_of_flatten hmodel⟩

end CommandDoc
