import CommandDoc.Proofs.Tree.NestedInsertion

/-!
# Depth-first walks

A walk through a nested tree numbers nodes as it meets them, and writes children into a node when it comes back to
it.  What it leaves is the row of nodes that `Branch.nodeRow` describes by searching the row of paths: the path of
the parent stands where the walk was when it went down, and the paths one word longer are the ones it went down to
from there.

Main definitions:

- `Forest.ids`: the numbers of nodes beside each other, if the first has a given one.
- `Forest.IsPart`: where the nodes of a forest stand in the row of all paths.

Main results:

- Theorem `Forest.IsPart.childIds_eq`: the numbers of the children are found by searching the row.
- Theorem `Forest.visit_eq`: a walk lays out the row of nodes.
- Theorem `NestedTree.flatten_eq`: a nested tree and its rows of paths have the same model.
- Theorems `NestedTree.flatten_insertAll` and `NestedTree.flatten_insertEach`: declarations inserted into both kinds
  of trees give the same model.
-/

namespace CommandDoc

/-! ## Names -/

namespace NamePool

/-- What is left of a pool when a name is handed out for each seed. -/
def afterAll (pool : NamePool) (seeds : List String) : NamePool :=
  seeds.foldl (fun left seed => (left.allocate seed).2) pool

/-- Names for more seeds are handed out from what is left. -/
theorem afterAll_append (pool : NamePool) (seeds others : List String) :
    pool.afterAll (seeds ++ others) = (pool.afterAll seeds).afterAll others :=
  List.foldl_append

end NamePool

/-! ## Rows of nodes -/

/-- What the names of nodes below a path are made of. -/
def seedsBelow (path : List String) (row : List (List String × Option Declaration)) : List String :=
  row.map fun entry => nameSeed ((path ++ entry.1).getLastD "") entry.2

/-- The nodes of a row of paths below a path, numbered from `id` on and named from a pool, as part of all paths. -/
def nodesBelow (command : String) (paths : List (List String)) (path : List String) :
    Nat → NamePool → List (List String × Option Declaration) → List Node
  | _, _, [] => []
  | id, pool, entry :: row =>
    let seed := nameSeed ((path ++ entry.1).getLastD "") entry.2
    pathNode command paths id (pool.allocate seed).1 (path ++ entry.1) entry.2
      :: nodesBelow command paths path (id + 1) (pool.allocate seed).2 row

section Rows

variable {command : String} {paths : List (List String)}

/-- There is a node for each path. -/
theorem length_nodesBelow (path : List String) (id : Nat) (pool : NamePool)
    (row : List (List String × Option Declaration)) :
    (nodesBelow command paths path id pool row).length = row.length := by
  induction row generalizing id pool with
  | nil => rfl
  | cons entry row ih => rw [nodesBelow, List.length_cons, ih, List.length_cons]

/-- Rows behind each other. -/
theorem nodesBelow_append (path : List String) (id : Nat) (pool : NamePool)
    (row others : List (List String × Option Declaration)) :
    nodesBelow command paths path id pool (row ++ others)
      = nodesBelow command paths path id pool row
        ++ nodesBelow command paths path (id + row.length) (pool.afterAll (seedsBelow path row)) others := by
  induction row generalizing id pool with
  | nil => rfl
  | cons entry row ih =>
    rw [List.cons_append, nodesBelow, nodesBelow, ih, List.cons_append, List.length_cons, Nat.add_right_comm,
      Nat.add_assoc]
    rfl

/-- Rows below a word are rows below the longer path. -/
theorem nodesBelow_under (path : List String) (word : String) (id : Nat) (pool : NamePool)
    (row : List (List String × Option Declaration)) :
    nodesBelow command paths path id pool (under word row)
      = nodesBelow command paths (path ++ [word]) id pool row := by
  induction row generalizing id pool with
  | nil => rfl
  | cons entry row ih =>
    have hpath : path ++ word :: entry.1 = path ++ [word] ++ entry.1 := by simp
    rw [under, List.map_cons, ← under, nodesBelow, nodesBelow, ih, hpath]

/-- So are the seeds of their names. -/
theorem seedsBelow_under (path : List String) (word : String) (row : List (List String × Option Declaration)) :
    seedsBelow path (under word row) = seedsBelow (path ++ [word]) row := by
  rw [seedsBelow, seedsBelow, under, List.map_map]
  refine List.map_congr_left fun entry _ => ?_
  simp

/-- The nodes of a row, numbered and named. -/
theorem nodesBelow_eq (path : List String) (id : Nat) (pool : NamePool)
    (row : List (List String × Option Declaration)) :
    nodesBelow command paths path id pool row
      = ((row.zip (pool.allocateAll (seedsBelow path row))).zipIdx id).map fun (((p, payload), name), i) =>
          pathNode command paths i name (path ++ p) payload := by
  induction row generalizing id pool with
  | nil => rfl
  | cons entry row ih =>
    rw [nodesBelow, seedsBelow, List.map_cons, ← seedsBelow, NamePool.allocateAll, List.zip_cons_cons,
      List.zipIdx_cons, List.map_cons, ih]

end Rows

/-! ## Numbers -/

/-- The numbers of the paths that are one word longer than `path`, where the first path has a given number. -/
def childIdsFrom (id : Nat) (paths : List (List String)) (path : List String) : List Nat :=
  (paths.zipIdx id).filterMap fun (other, i) => if other.dropLast == path then some i else none

/-- Paths are searched one part after another. -/
theorem childIdsFrom_append (id : Nat) (paths others : List (List String)) (path : List String) :
    childIdsFrom id (paths ++ others) path
      = childIdsFrom id paths path ++ childIdsFrom (id + paths.length) others path := by
  rw [childIdsFrom, List.zipIdx_append, List.filterMap_append, childIdsFrom, childIdsFrom]

/-- Nothing is found among paths that are not one word longer. -/
theorem childIdsFrom_eq_nil {paths : List (List String)} {path : List String}
    (h : ∀ other ∈ paths, other.dropLast ≠ path) (id : Nat) : childIdsFrom id paths path = [] := by
  rw [childIdsFrom, List.filterMap_eq_nil_iff]
  intro entry hentry
  have hother := h entry.1 (List.fst_mem_of_mem_zipIdx hentry)
  simp [hother]

namespace Forest

/-- The numbers of nodes beside each other, if the first has the given number and each stands in front of the nodes
below it. -/
def ids : Forest → Nat → List Nat
  | .nil, _ => []
  | .cons _ _ below rest, id => id :: rest.ids (id + 1 + below.entries.length)

/-- The paths of the nodes of a forest that stands below a path. -/
def pathsBelow (forest : Forest) (path : List String) : List (List String) :=
  forest.entries.map fun entry => path ++ entry.1

/-- The paths of the first node, of what is below it, and of the nodes beside it. -/
theorem pathsBelow_cons (word : String) (payload : Option Declaration) (below rest : Forest) (path : List String) :
    (cons word payload below rest).pathsBelow path
      = [path ++ [word]] ++ (below.pathsBelow (path ++ [word]) ++ rest.pathsBelow path) := by
  simp [pathsBelow, entries, under]

/-- Every path of a forest continues with a word of its nodes. -/
theorem exists_word_of_mem_pathsBelow {forest : Forest} {path other : List String}
    (h : other ∈ forest.pathsBelow path) : ∃ word ∈ forest.words, path ++ [word] <+: other := by
  obtain ⟨entry, hentry, rfl⟩ := List.mem_map.mp h
  obtain ⟨word, hword, rest, hpath⟩ := exists_word_of_mem_entries hentry
  exact ⟨word, hword, rest, by simp [hpath]⟩

/-- The nodes beside each other are those one word longer than the path above them. -/
theorem childIdsFrom_pathsBelow (forest : Forest) (path : List String) (id : Nat) :
    childIdsFrom id (forest.pathsBelow path) path = forest.ids id := by
  induction forest generalizing id with
  | nil => rfl
  | cons word payload below rest _ ih =>
    have hfirst : childIdsFrom id [path ++ [word]] path = [id] := by simp [childIdsFrom]
    have hbelow : ∀ other ∈ below.pathsBelow (path ++ [word]), other.dropLast ≠ path := by
      intro other hother
      obtain ⟨next, -, hprefix⟩ := exists_word_of_mem_pathsBelow hother
      have hlength := hprefix.length_le
      rintro rfl
      simp at hlength
      omega
    rw [pathsBelow_cons, childIdsFrom_append, hfirst, childIdsFrom_append, childIdsFrom_eq_nil hbelow, ih, ids]
    simp [pathsBelow]

/-! ## Parts of a row -/

/-- A forest whose nodes stand together in the row of all paths; no path in front of them or behind them begins
with one of its nodes. -/
structure IsPart (paths : List (List String)) (path : List String) (front : List (List String)) (forest : Forest)
    (back : List (List String)) : Prop where
  /-- The nodes stand in the order of their words. -/
  ordered : forest.IsOrdered
  /-- Their paths stand together. -/
  paths_eq : paths = front ++ (forest.pathsBelow path ++ back)
  /-- Nothing in front belongs to them. -/
  front_apart : ∀ other ∈ front, ∀ word ∈ forest.words, ¬ path ++ [word] <+: other
  /-- Nothing behind belongs to them. -/
  back_apart : ∀ other ∈ back, ∀ word ∈ forest.words, ¬ path ++ [word] <+: other

namespace IsPart

variable {paths front back : List (List String)} {path : List String} {word : String}
  {payload : Option Declaration} {below rest : Forest}

/-- Paths that continue with different words do not begin with each other. -/
theorem not_prefix_of_mem_rest (h : IsPart paths path front (cons word payload below rest) back)
    {other : List String} (hother : other ∈ rest.pathsBelow path) : ¬ path ++ [word] <+: other := by
  obtain ⟨next, hnext, hprefix⟩ := exists_word_of_mem_pathsBelow hother
  intro hword
  have hsame : path ++ [word] = path ++ [next] :=
    (List.prefix_of_prefix_length_le hword hprefix (by simp)).eq_of_length (by simp)
  obtain rfl : word = next := by simpa using hsame
  exact String.lt_irrefl word (h.ordered.1 word hnext)

/-- What is below the first node is a part behind it. -/
theorem down (h : IsPart paths path front (cons word payload below rest) back) :
    IsPart paths (path ++ [word]) (front ++ [path ++ [word]]) below (rest.pathsBelow path ++ back) where
  ordered := h.ordered.2.1
  paths_eq := by rw [h.paths_eq, pathsBelow_cons]; simp
  front_apart := by
    intro other hother next _ hprefix
    have hword := (List.prefix_append (path ++ [word]) [next]).trans hprefix
    rcases List.mem_append.mp hother with hother | hother
    · exact h.front_apart other hother word List.mem_cons_self hword
    · rw [List.mem_singleton.mp hother] at hprefix
      have hlength := hprefix.length_le
      simp at hlength
  back_apart := by
    intro other hother next _ hprefix
    have hword := (List.prefix_append (path ++ [word]) [next]).trans hprefix
    rcases List.mem_append.mp hother with hother | hother
    · exact h.not_prefix_of_mem_rest hother hword
    · exact h.back_apart other hother word List.mem_cons_self hword

/-- The nodes beside the first one are a part behind all that is below it. -/
theorem across (h : IsPart paths path front (cons word payload below rest) back) :
    IsPart paths path (front ++ ([path ++ [word]] ++ below.pathsBelow (path ++ [word]))) rest back where
  ordered := h.ordered.2.2
  paths_eq := by rw [h.paths_eq, pathsBelow_cons]; simp
  front_apart := by
    intro other hother next hnext hprefix
    rcases List.mem_append.mp hother with hother | hother
    · exact h.front_apart other hother next (List.mem_cons_of_mem _ hnext) hprefix
    · -- Such a path begins with the first word, which is not the next one.
      have hword : path ++ [word] <+: other := by
        rcases List.mem_append.mp hother with hother | hother
        · exact List.mem_singleton.mp hother ▸ List.prefix_refl _
        · obtain ⟨inner, -, rfl⟩ := List.mem_map.mp hother
          exact List.prefix_append _ _
      have hsame : path ++ [word] = path ++ [next] :=
        (List.prefix_of_prefix_length_le hword hprefix (by simp)).eq_of_length (by simp)
      obtain rfl : word = next := by simpa using hsame
      exact String.lt_irrefl word (h.ordered.1 word hnext)
  back_apart := fun other hother next hnext => h.back_apart other hother next (List.mem_cons_of_mem _ hnext)

/-- The first node is found at its number. -/
theorem idxOf?_eq (h : IsPart paths path front (cons word payload below rest) back) :
    paths.idxOf? (path ++ [word]) = some front.length := by
  have hfront : path ++ [word] ∉ front := fun hmem =>
    h.front_apart _ hmem word List.mem_cons_self (List.prefix_refl _)
  have hnone : front.findIdx? (· == path ++ [word]) = none := List.idxOf?_eq_none_iff.mpr hfront
  rw [h.paths_eq, pathsBelow_cons, List.idxOf?, List.findIdx?_append, hnone, Option.none_or,
    List.singleton_append, List.cons_append, List.findIdx?_cons, if_pos (beq_self_eq_true _)]
  simp

/-- The children of the first node are the nodes that stand directly below it. -/
theorem childIds_eq (h : IsPart paths path front (cons word payload below rest) back) :
    childIds paths (path ++ [word]) = below.ids (front.length + 1) := by
  have hdrop : ∀ {other : List String}, ¬ path ++ [word] <+: other → other.dropLast ≠ path ++ [word] := by
    intro other hother heq
    exact hother (heq ▸ List.dropLast_prefix other)
  have hfront : ∀ other ∈ front ++ [path ++ [word]], other.dropLast ≠ path ++ [word] := by
    intro other hother
    rcases List.mem_append.mp hother with hother | hother
    · exact hdrop (h.front_apart other hother word List.mem_cons_self)
    · rw [List.mem_singleton.mp hother]
      simp
  have hback : ∀ other ∈ rest.pathsBelow path ++ back, other.dropLast ≠ path ++ [word] := by
    intro other hother
    rcases List.mem_append.mp hother with hother | hother
    · exact hdrop (h.not_prefix_of_mem_rest hother)
    · exact hdrop (h.back_apart other hother word List.mem_cons_self)
  have hall : childIds paths (path ++ [word]) = childIdsFrom 0 paths (path ++ [word]) := rfl
  rw [hall, h.down.paths_eq, childIdsFrom_append, childIdsFrom_eq_nil hfront, childIdsFrom_append,
    childIdsFrom_pathsBelow, childIdsFrom_eq_nil hback, List.nil_append, List.append_nil, Nat.zero_add,
    List.length_append]
  rfl

end IsPart

/-! ## Walks -/

section Cons

variable (command word : String) (paths : List (List String)) (path : List String) (payload : Option Declaration)
  (below rest : Forest) (pool : NamePool)

/-- The names of a forest are handed out to its first node, then below it, and then beside it. -/
theorem afterAll_cons :
    pool.afterAll (seedsBelow path (cons word payload below rest).entries)
      = ((pool.allocate (nameSeed ((path ++ [word]).getLastD "") payload)).2.afterAll
          (seedsBelow (path ++ [word]) below.entries)).afterAll (seedsBelow path rest.entries) := by
  have hseeds : seedsBelow path (cons word payload below rest).entries
      = nameSeed ((path ++ [word]).getLastD "") payload
        :: (seedsBelow path (under word below.entries) ++ seedsBelow path rest.entries) := by
    simp [seedsBelow, entries]
  rw [hseeds, seedsBelow_under, ← NamePool.afterAll_append]
  rfl

/-- So are the nodes laid out. -/
theorem nodesBelow_cons (id : Nat) :
    nodesBelow command paths path id pool (cons word payload below rest).entries
      = pathNode command paths id (pool.allocate (nameSeed ((path ++ [word]).getLastD "") payload)).1
          (path ++ [word]) payload
        :: (nodesBelow command paths (path ++ [word]) (id + 1)
              (pool.allocate (nameSeed ((path ++ [word]).getLastD "") payload)).2 below.entries
            ++ nodesBelow command paths path (id + 1 + below.entries.length)
              ((pool.allocate (nameSeed ((path ++ [word]).getLastD "") payload)).2.afterAll
                (seedsBelow (path ++ [word]) below.entries)) rest.entries) := by
  rw [entries, nodesBelow, nodesBelow_append, nodesBelow_under, seedsBelow_under, under, List.length_map]

end Cons

/-- The element behind others is changed at their number. -/
theorem modify_length {α : Type} (f : α → α) (front : List α) (x : α) (back : List α) :
    (front ++ x :: back).modify front.length f = front ++ f x :: back := by
  induction front with
  | nil => rfl
  | cons y front ih => rw [List.cons_append, List.length_cons, List.modify_succ_cons, ih, List.cons_append]

/-- A node that is laid out behind others, once its children are written into it, is the node at its path. -/
theorem IsPart.setChildren_add {paths front back : List (List String)} {path : List String} {word : String}
    {payload : Option Declaration} {below rest : Forest}
    (h : IsPart paths path front (cons word payload below rest) back) {layout : Layout}
    (hlength : layout.nodes.length = front.length) (command : String) (pool : NamePool) (later : List Node) :
    Layout.setChildren
        ⟨pool, (layout.add command (path ++ [word]) payload (paths.idxOf? path)).nodes ++ later⟩
        front.length (below.ids (front.length + 1))
      = ⟨pool, layout.nodes ++
          (pathNode command paths front.length
            (layout.pool.allocate (nameSeed ((path ++ [word]).getLastD "") payload)).1 (path ++ [word]) payload
              :: later)⟩ := by
  have hparent : parentId? paths (path ++ [word]) = paths.idxOf? path := by
    rw [parentId?, List.dropLast_concat]
  rw [Layout.setChildren, Layout.add, ← hlength]
  dsimp only
  rw [List.append_assoc, List.singleton_append, modify_length, pathNode, h.childIds_eq, hparent, hlength]

/-- A walk through nodes beside each other lays out their part of the row of all nodes. -/
theorem visit_eq {paths front back : List (List String)} {path : List String} {forest : Forest}
    (h : IsPart paths path front forest back) {layout : Layout} (hlength : layout.nodes.length = front.length)
    (command : String) :
    forest.visit command path (paths.idxOf? path) layout
      = (forest.ids front.length,
          ⟨layout.pool.afterAll (seedsBelow path forest.entries),
            layout.nodes ++ nodesBelow command paths path front.length layout.pool forest.entries⟩) := by
  induction forest generalizing path front back layout with
  | nil => simp [visit, ids, entries, seedsBelow, nodesBelow, NamePool.afterAll]
  | cons word payload below rest ihBelow ihRest =>
    have hadded : (layout.add command (path ++ [word]) payload (paths.idxOf? path)).nodes.length
        = (front ++ [path ++ [word]]).length := by
      simp [Layout.add, hlength]
    have hbelow := ihBelow h.down hadded
    rw [h.idxOf?_eq, List.length_append, List.length_singleton] at hbelow
    rw [visit, hlength, hbelow]
    dsimp only
    rw [h.setChildren_add hlength]
    -- The walk goes on behind all that is below the first node.
    have hbehind : (front ++ ([path ++ [word]] ++ below.pathsBelow (path ++ [word]))).length
        = front.length + 1 + below.entries.length := by
      simp [pathsBelow]
      omega
    have hlength' : (layout.nodes ++ pathNode command paths front.length
          (layout.pool.allocate (nameSeed ((path ++ [word]).getLastD "") payload)).1 (path ++ [word]) payload
        :: nodesBelow command paths (path ++ [word]) (front.length + 1)
          (layout.add command (path ++ [word]) payload (paths.idxOf? path)).pool below.entries).length
        = (front ++ ([path ++ [word]] ++ below.pathsBelow (path ++ [word]))).length := by
      rw [hbehind, List.length_append, List.length_cons, length_nodesBelow, hlength]
      omega
    rw [ihRest h.across hlength', hbehind, ids, afterAll_cons, nodesBelow_cons]
    simp only [List.append_assoc, List.cons_append]
    rfl

/-- All nodes of a forest are the whole row of their paths. -/
theorem isPart_self {forest : Forest} (h : forest.IsOrdered) :
    IsPart (forest.entries.map (·.1)) [] [] forest [] where
  ordered := h
  paths_eq := by simp [pathsBelow]
  front_apart := by simp
  back_apart := by simp

/-- No node has the empty path. -/
theorem idxOf?_nil (forest : Forest) : (forest.entries.map (·.1)).idxOf? [] = none := by
  rw [List.idxOf?_eq_none_iff]
  intro hmem
  obtain ⟨entry, hentry, hpath⟩ := List.mem_map.mp hmem
  obtain ⟨word, -, rest, hcons⟩ := exists_word_of_mem_entries hentry
  exact List.cons_ne_nil word rest (hcons.symm.trans hpath)

end Forest

/-! ## Models -/

/-- The walk through the nodes of a command lays out the row that searching its paths gives. -/
theorem NestedEntry.visit_eq {entry : NestedEntry} (h : entry.node.children.IsOrdered) (command : String)
    (pool : NamePool) :
    ∃ left, entry.node.children.visit command [] none { pool := pool }
      = (childIds entry.toBranch.paths [],
          ⟨left, entry.toBranch.nodeRow command
            (pool.allocateAll (seedsBelow [] entry.node.children.entries))⟩) := by
  have hlength : (⟨pool, []⟩ : Layout).nodes.length = ([] : List (List String)).length := rfl
  have hvisit := Forest.visit_eq (Forest.isPart_self h) hlength command
  have hids : entry.node.children.ids 0 = childIds entry.toBranch.paths [] :=
    (Forest.childIdsFrom_pathsBelow entry.node.children [] 0).symm
  have hrow : nodesBelow command entry.toBranch.paths [] 0 pool entry.node.children.entries
      = entry.toBranch.nodeRow command (pool.allocateAll (seedsBelow [] entry.node.children.entries)) :=
    nodesBelow_eq [] 0 pool entry.node.children.entries
  rw [Forest.idxOf?_nil, List.nil_append] at hvisit
  rw [← hids, ← hrow]
  exact ⟨_, hvisit⟩

/-- The row of a nested entry is that of its branch. -/
theorem NestedEntry.row_eq {entry : NestedEntry} (h : entry.node.children.IsOrdered) (command : String)
    (reserved : List String) : entry.row command reserved = entry.toBranch.row command reserved := by
  obtain ⟨left, hvisit⟩ := visit_eq h command
    ((NamePool.withReserved reserved).allocate (nameSeed command entry.node.payload)).2
  rw [row, hvisit]
  rfl

/-- A nested entry and its branch have the same command, or the same error. -/
theorem NestedEntry.flatten_eq {entry : NestedEntry} (h : entry.node.children.IsOrdered) (command : String)
    (reserved : List String) : entry.flatten command reserved = entry.toBranch.flatten command reserved := by
  rw [NestedEntry.flatten, Branch.flatten, row_eq h]

/-- A nested tree and its rows of paths have the same model, or the same error. -/
theorem NestedTree.flatten_eq {tree : NestedTree} (h : tree.IsOrdered) (reserved : List String) :
    tree.flatten reserved = tree.toCommandTree.flatten reserved := by
  have hcommands : ∀ commands : List (String × NestedEntry),
      (∀ entry ∈ commands.map (·.2), entry.node.children.IsOrdered) →
        commands.mapM (fun entry => entry.2.flatten entry.1 reserved)
          = (commands.map fun entry => (entry.1, entry.2.toBranch)).mapM fun entry =>
              entry.2.flatten entry.1 reserved := by
    intro commands hordered
    induction commands with
    | nil => rfl
    | cons entry commands ih =>
      rw [List.map_cons, List.mapM_cons, List.mapM_cons, ih fun other hother => hordered other
        (List.mem_cons_of_mem _ hother), NestedEntry.flatten_eq (hordered entry.2 List.mem_cons_self)]
  rw [flatten, hcommands tree.commands h, CommandTree.flatten, toCommandTree]

/-- Declarations that are inserted into a nested tree, up to the first refusal, give the model that the rows of paths
give. -/
theorem NestedTree.flatten_insertAll {tree : NestedTree} (h : tree.IsOrdered) (ds : List Declaration)
    (reserved : List String) :
    (tree.insertAll ds).1.flatten reserved = (tree.toCommandTree.insertAll ds).1.flatten reserved := by
  rw [flatten_eq (h.insertAll ds), (toCommandTree_insertAll h ds).1]

/-- So do declarations that are inserted whether they are accepted or not. -/
theorem NestedTree.flatten_insertEach {tree : NestedTree} (h : tree.IsOrdered) (ds : List Declaration)
    (reserved : List String) :
    (tree.insertEach ds).flatten reserved = (tree.toCommandTree.insertEach ds).flatten reserved := by
  rw [flatten_eq (h.insertEach ds), toCommandTree_insertEach h]

end CommandDoc
