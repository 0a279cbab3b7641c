import CommandDoc.Proofs.Tree.Acceptance
import CommandDoc.Tree.Nested

/-!
# What a nested tree holds

The nodes of a nested tree, read off in depth-first order with their paths, are the row of paths that
`CommandTree` keeps in lexicographic order.  A walk down a path makes the nodes that touching the starts of the
path puts into the row, and it finds at its end what the row has there.

Main definitions:

- `Forest.entries`, `NestedEntry.toBranch` and `NestedTree.toCommandTree`: the rows of paths of a nested tree.
- `Forest.IsOrdered` and `NestedTree.IsOrdered`: nodes beside each other stand in the order of their words.

Main results:

- Theorem `Forest.exists_entries_enter`: entering a word changes one stretch of the row.
- Theorem `NestedNode.descend_place`: a walk down a path does to the row what an insertion does to it.
- Theorems `NestedTree.insert_fst` and `NestedTree.insert_snd`: one insertion into both trees.
- Theorem `NestedTree.insertAll_eq`: so does a run of insertions, and the count of the nested tree is the number of
  declarations in the row.
-/

namespace CommandDoc

/-! ## Rows of paths -/

/-- A row of paths below a word. -/
def under (word : String) (row : List (List String × Option Declaration)) :
    List (List String × Option Declaration) :=
  row.map fun entry => (word :: entry.1, entry.2)

namespace Forest

/-- The nodes in depth-first order, with their paths and what is declared at them. -/
def entries : Forest → List (List String × Option Declaration)
  | .nil => []
  | .cons word payload below rest => ([word], payload) :: (under word below.entries ++ rest.entries)

/-- The words of the nodes that stand beside each other. -/
def words : Forest → List String
  | .nil => []
  | .cons word _ _ rest => word :: rest.words

/-- Nodes beside each other stand in ascending order of their words. -/
def IsOrdered : Forest → Prop
  | .nil => True
  | .cons word _ below rest => (∀ other ∈ rest.words, word < other) ∧ below.IsOrdered ∧ rest.IsOrdered

end Forest

/-- A node and the nodes below it in depth-first order; the node itself has the empty path. -/
def NestedNode.entries (node : NestedNode) : List (List String × Option Declaration) :=
  ([], node.payload) :: node.children.entries

/-- The branch that keeps the nodes of an entry as a row of paths. -/
def NestedEntry.toBranch (entry : NestedEntry) : Branch where
  root := entry.node.payload
  packages := entry.packages
  nodes := entry.node.children.entries

/-- The tree that keeps the nodes of each command as a row of paths. -/
def NestedTree.toCommandTree (tree : NestedTree) : CommandTree where
  commands := tree.commands.map fun entry => (entry.1, entry.2.toBranch)

/-- The nodes of all commands stand in the order of their words. -/
def NestedTree.IsOrdered (tree : NestedTree) : Prop :=
  ∀ entry ∈ tree.commands.map (·.2), entry.node.children.IsOrdered

/-! ## Stretches of a row -/

/-- The paths of a row that begin with a word stand together: others stand before or behind all of them. -/
structure IsStretch (word : String) (front back : List (List String × Option Declaration)) : Prop where
  /-- Paths in front come before every path with the word. -/
  before : ∀ entry ∈ front, ∀ path, pathBefore entry.1 (word :: path) = true
  /-- Paths behind come after every path with the word. -/
  after : ∀ entry ∈ back, ∀ path, pathBefore (word :: path) entry.1 = true

/-- Below a word paths keep their order. -/
theorem pathBefore_cons (word : String) (p q : List String) :
    pathBefore (word :: p) (word :: q) = pathBefore p q := by
  simp [pathBefore]

namespace IsStretch

variable {word : String} {front back : List (List String × Option Declaration)}

/-- An update below the word changes the stretch only. -/
theorem update (h : IsStretch word front back) (path : List String)
    (change : Option (Option Declaration) → Option Declaration)
    (row : List (List String × Option Declaration)) :
    Ordered.update pathBefore (word :: path) change (front ++ (under word row ++ back))
      = front ++ (under word (Ordered.update pathBefore path change row) ++ back) := by
  have hrow : Ordered.update pathBefore (word :: path) change (under word row)
      = under word (Ordered.update pathBefore path change row) := by
    refine Ordered.update_map_entry (f := (word :: ·)) (g := id) (pathBefore_cons word) ?_ row
    simp
  rw [Ordered.update_append_of_before pathBefore_strictOrder change fun entry hentry => h.before entry hentry path,
    Ordered.update_append_of_after change _ fun entry hentry => h.after entry hentry path, hrow]

/-- So does touching paths below the word. -/
theorem foldl_touch (h : IsStretch word front back) (paths : List (List String))
    (row : List (List String × Option Declaration)) :
    (paths.map (word :: ·)).foldl Branch.touch (front ++ (under word row ++ back))
      = front ++ (under word (paths.foldl Branch.touch row) ++ back) := by
  induction paths generalizing row with
  | nil => rfl
  | cons path paths ih =>
    rw [List.map_cons, List.foldl_cons, List.foldl_cons, Branch.touch, h.update, ← Branch.touch, ih]

/-- A path below the word is looked up in the stretch. -/
theorem find? (h : IsStretch word front back) (path : List String)
    (row : List (List String × Option Declaration)) :
    Ordered.find? (word :: path) (front ++ (under word row ++ back)) = Ordered.find? path row := by
  have hfront : ∀ entry ∈ front, entry.1 ≠ word :: path := fun entry hentry =>
    pathBefore_strictOrder.ne (h.before entry hentry path)
  have hback : ∀ entry ∈ back, entry.1 ≠ word :: path := fun entry hentry =>
    (pathBefore_strictOrder.ne (h.after entry hentry path)).symm
  rw [Ordered.find?_append hfront, Ordered.find?_append_of_ne _ hback]
  exact (Ordered.find?_map_entry (f := (word :: ·)) List.cons_injective id path row).trans Option.map_id_apply

end IsStretch

/-! ## Entering a word -/

namespace Forest

/-- The row of a node in front of others. -/
@[simp] theorem entries_push (word : String) (node : NestedNode) (rest : Forest) :
    (push word node rest).entries = under word node.entries ++ rest.entries := rfl

/-- Every path begins with the word of one of the nodes beside each other. -/
theorem exists_word_of_mem_entries {forest : Forest} {entry : List String × Option Declaration}
    (h : entry ∈ forest.entries) : ∃ word ∈ forest.words, ∃ path, entry.1 = word :: path := by
  induction forest with
  | nil => cases h
  | cons word payload below rest _ ih =>
    rw [entries, List.mem_cons, List.mem_append] at h
    rcases h with rfl | h | h
    · exact ⟨word, List.mem_cons_self, [], rfl⟩
    · obtain ⟨inner, -, rfl⟩ := List.mem_map.mp h
      exact ⟨word, List.mem_cons_self, inner.1, rfl⟩
    · obtain ⟨other, hother, hpath⟩ := ih h
      exact ⟨other, List.mem_cons_of_mem _ hother, hpath⟩

/-- Nodes with greater words stand behind the stretch of a word. -/
theorem after_of_lt_words {forest : Forest} {word : String} (h : ∀ other ∈ forest.words, word < other) :
    ∀ entry ∈ forest.entries, ∀ path, pathBefore (word :: path) entry.1 = true := by
  intro entry hentry path
  obtain ⟨other, hother, rest, hpath⟩ := exists_word_of_mem_entries hentry
  rw [hpath, pathBefore, decide_eq_true_eq, List.cons_lt_cons_iff]
  exact Or.inl (h other hother)

/-- Where a word is entered: the node there, an empty one if it is made, and what stands in front of it and behind
it. -/
structure Opens (forest : Forest) (word : String) (front : List (List String × Option Declaration))
    (node : NestedNode) (back : List (List String × Option Declaration)) : Prop where
  /-- The node and what is below it form the stretch of the word. -/
  stretch : IsStretch word front back
  /-- What is below the node is in order. -/
  ordered : node.children.IsOrdered
  /-- The node is in the row that touching the word leaves. -/
  touch_eq : Branch.touch forest.entries [word] = front ++ (under word node.entries ++ back)
  /-- What is done to the node changes its stretch only. -/
  entries_enter : ∀ {α : Type} (action : NestedNode → NestedNode × α),
    (forest.enter word action).1.entries = front ++ (under word (action node).1.entries ++ back)
  /-- Its result is the result of entering. -/
  snd_enter : ∀ {α : Type} (action : NestedNode → NestedNode × α),
    (forest.enter word action).2 = (action node).2

section Enter

variable {word w : String} {payload : Option Declaration} {below rest : Forest}

/-- A word before all others is entered in front of them. -/
theorem opens_of_before (h : ∀ other ∈ (cons w payload below rest).words, word < other) :
    Opens (cons w payload below rest) word [] {} (cons w payload below rest).entries := by
  have hbefore : Ordered.stringBefore word w = true := decide_eq_true (h w List.mem_cons_self)
  refine ⟨⟨by simp, after_of_lt_words h⟩, trivial, ?_, fun action => ?_, fun action => ?_⟩
  · exact Ordered.update_append_of_after _ [] fun entry hentry => after_of_lt_words h entry hentry []
  · rw [enter, if_pos hbefore]
    rfl
  · rw [enter, if_pos hbefore]

/-- A word that is there is entered at its node. -/
theorem opens_self (h : (cons word payload below rest).IsOrdered) :
    Opens (cons word payload below rest) word [] ⟨payload, below⟩ rest.entries := by
  have hirrefl : ¬ Ordered.stringBefore word word = true := by
    simp [Ordered.stringBefore_strictOrder.irrefl word]
  refine ⟨⟨by simp, after_of_lt_words h.1⟩, h.2.1, ?_, fun action => ?_, fun action => ?_⟩
  · simp [Branch.touch, entries, NestedNode.entries, under, Ordered.update, pathBefore_strictOrder.irrefl]
  · rw [enter, if_neg hirrefl, if_neg hirrefl]
    rfl
  · rw [enter, if_neg hirrefl, if_neg hirrefl]

/-- A word behind the first one is entered among the others. -/
theorem Opens.cons {front back : List (List String × Option Declaration)} {node : NestedNode}
    (h : Opens rest word front node back) (hw : w < word) :
    Opens (.cons w payload below rest) word (under w (NestedNode.entries ⟨payload, below⟩) ++ front) node
      back := by
  have hafter : Ordered.stringBefore w word = true := decide_eq_true hw
  have hbefore : ¬ Ordered.stringBefore word w = true := by
    simp [Ordered.stringBefore_strictOrder.asymm hafter]
  have hfirst : ∀ entry ∈ under w (NestedNode.entries ⟨payload, below⟩), ∀ path,
      pathBefore entry.1 (word :: path) = true := by
    intro entry hentry path
    obtain ⟨inner, -, rfl⟩ := List.mem_map.mp hentry
    rw [pathBefore, decide_eq_true_eq, List.cons_lt_cons_iff]
    exact Or.inl hw
  have hentries : ∀ others : Forest, (Forest.cons w payload below others).entries
      = under w (NestedNode.entries ⟨payload, below⟩) ++ others.entries := fun _ => rfl
  refine ⟨⟨List.forall_mem_append.mpr ⟨hfirst, h.stretch.before⟩, h.stretch.after⟩, h.ordered, ?_,
    fun action => ?_, fun action => ?_⟩
  · rw [Branch.touch, hentries, Ordered.update_append_of_before pathBefore_strictOrder _
      fun entry hentry => hfirst entry hentry [], ← Branch.touch, h.touch_eq, List.append_assoc]
  · rw [enter, if_neg hbefore, if_pos hafter, hentries, h.entries_enter, List.append_assoc]
  · rw [enter, if_neg hbefore, if_pos hafter, h.snd_enter]

end Enter

/-- Every word is entered somewhere. -/
theorem exists_opens {forest : Forest} (h : forest.IsOrdered) (word : String) :
    ∃ front node back, Opens forest word front node back := by
  induction forest with
  | nil =>
    refine ⟨[], {}, [], ⟨by simp, by simp⟩, trivial, rfl, fun action => ?_, fun action => rfl⟩
    rw [enter, entries_push]
    rfl
  | cons w payload below rest _ ih =>
    by_cases hbefore : Ordered.stringBefore word w = true
    · have hlt : word < w := of_decide_eq_true hbefore
      refine ⟨_, _, _, opens_of_before fun other hother => ?_⟩
      rcases List.mem_cons.mp hother with rfl | hother
      · exact hlt
      · exact String.lt_trans hlt (h.1 other hother)
    · by_cases hafter : Ordered.stringBefore w word = true
      · obtain ⟨front, node, back, hopens⟩ := ih h.2.2
        exact ⟨_, node, back, hopens.cons (of_decide_eq_true hafter)⟩
      · obtain rfl : word = w :=
          Ordered.stringBefore_strictOrder.connected word w (by simpa using hbefore) (by simpa using hafter)
        exact ⟨_, _, _, opens_self h⟩

/-- Entering a word adds no other word. -/
theorem mem_words_enter {α : Type} {forest : Forest} {word other : String}
    {action : NestedNode → NestedNode × α} (h : other ∈ (forest.enter word action).1.words) :
    other = word ∨ other ∈ forest.words := by
  induction forest with
  | nil => exact Or.inl (List.mem_singleton.mp h)
  | cons w payload below rest _ ih =>
    rw [enter] at h
    split at h
    · exact List.mem_cons.mp h
    · split at h
      · rcases List.mem_cons.mp h with rfl | h
        · exact Or.inr List.mem_cons_self
        · exact (ih h).imp_right (List.mem_cons_of_mem _)
      · exact Or.inr h

/-- Entering a word keeps nodes in order if the action does so. -/
theorem IsOrdered.enter {α : Type} {forest : Forest} (h : forest.IsOrdered) (word : String)
    {action : NestedNode → NestedNode × α}
    (haction : ∀ node, node.children.IsOrdered → (action node).1.children.IsOrdered) :
    (forest.enter word action).1.IsOrdered := by
  induction forest with
  | nil => exact ⟨by simp [words], haction {} trivial, trivial⟩
  | cons w payload below rest _ ih =>
    rw [Forest.enter]
    split
    · next hbefore =>
      have hlt : word < w := of_decide_eq_true hbefore
      refine ⟨fun other hother => ?_, haction {} trivial, h⟩
      rcases List.mem_cons.mp hother with rfl | hother
      · exact hlt
      · exact String.lt_trans hlt (h.1 other hother)
    · split
      · next hafter =>
        refine ⟨fun other hother => ?_, h.2.1, ih h.2.2⟩
        rcases mem_words_enter hother with rfl | hother
        · exact of_decide_eq_true hafter
        · exact h.1 other hother
      · exact ⟨h.1, haction _ h.2.1, h.2.2⟩

end Forest

/-! ## Walking down a path -/

namespace NestedNode

/-- Placing a declaration says what stood in its way, and keeps what is below. -/
theorem snd_place (d : Declaration) (node : NestedNode) :
    (node.place d).2 = node.payload.map (CommandTree.duplicate · d) := by
  rw [place]
  split
  · next h => rw [h, Option.map_some]
  · next h => rw [h, Option.map_none]

/-- Walks keep nodes in order. -/
theorem isOrdered_descend {d : Declaration} {node : NestedNode} (h : node.children.IsOrdered)
    (path : List String) : (node.descend (place d) path).1.children.IsOrdered := by
  induction path generalizing node with
  | nil =>
    rw [descend, place]
    split
    · exact h
    · exact h
  | cons word path ih => exact h.enter word fun inner hinner => ih hinner

/-- A row with a declaration at a path, unless there is one. -/
def placed (d : Declaration) (path : List String) (row : List (List String × Option Declaration)) :
    List (List String × Option Declaration) :=
  match (Ordered.find? path row).join with
  | some _ => row
  | none => Ordered.put pathBefore path (some d) row

section Below

variable {node inner : NestedNode} {word : String} {front back : List (List String × Option Declaration)}

/-- A node comes before the stretch of every word below it. -/
theorem isStretch_entries (h : node.children.Opens word front inner back) :
    IsStretch word (([], node.payload) :: front) back where
  before := List.forall_mem_cons.mpr
    ⟨fun path => decide_eq_true (List.nil_lt_cons word path), h.stretch.before⟩
  after := h.stretch.after

/-- Touching the starts of a path touches, below its first word, the starts of what is left of it. -/
theorem foldl_touch_entries (h : node.children.Opens word front inner back) (path : List String) :
    (starts (word :: path)).foldl Branch.touch node.entries
      = (([], node.payload) :: front)
        ++ (under word ((starts path).foldl Branch.touch inner.entries) ++ back) := by
  have htouch : Branch.touch node.entries [word]
      = (([], node.payload) :: front) ++ (under word inner.entries ++ back) := by
    have hself : ∀ entry ∈ [(([] : List String), node.payload)], pathBefore entry.1 [word] = true := by
      simp [pathBefore]
    rw [List.cons_append, ← h.touch_eq]
    exact Ordered.update_append_of_before pathBefore_strictOrder _ hself node.children.entries
  rw [starts, List.foldl_cons, htouch, (isStretch_entries h).foldl_touch]

end Below

/-- A walk down a path touches its starts and places the declaration at its end. -/
theorem descend_place {node : NestedNode} (h : node.children.IsOrdered) (d : Declaration)
    (path : List String) :
    (node.descend (place d) path).1.entries = placed d path ((starts path).foldl Branch.touch node.entries) ∧
      (node.descend (place d) path).2
        = ((Ordered.find? path ((starts path).foldl Branch.touch node.entries)).join).map
            (CommandTree.duplicate · d) := by
  induction path generalizing node with
  | nil =>
    have hfound : Ordered.find? [] node.entries = some node.payload := rfl
    refine ⟨?_, ?_⟩
    · rw [starts, List.foldl_nil, placed, hfound, Option.join_some, descend, place]
      cases hpayload : node.payload with
      | some existing => rfl
      | none => simp [entries, Ordered.put, Ordered.update, pathBefore_strictOrder.irrefl]
    · rw [starts, List.foldl_nil, hfound, Option.join_some, descend, snd_place]
  | cons word path ih =>
    obtain ⟨front, inner, back, hopens⟩ := Forest.exists_opens h word
    obtain ⟨hentries, hresult⟩ := ih hopens.ordered
    have hwalk : (node.descend (place d) (word :: path)).1.entries
        = (([], node.payload) :: front) ++ (under word (inner.descend (place d) path).1.entries ++ back) :=
      congrArg (List.cons _) (hopens.entries_enter _)
    refine ⟨?_, ?_⟩
    · rw [hwalk, hentries, foldl_touch_entries hopens, placed, placed, (isStretch_entries hopens).find?]
      split
      · rfl
      · exact ((isStretch_entries hopens).update path _ _).symm
    · rw [foldl_touch_entries hopens, (isStretch_entries hopens).find?, ← hresult]
      exact hopens.snd_enter _

end NestedNode

/-! ## Branches -/

/-- Touching paths with words leaves the node above all of them in front. -/
theorem foldl_touch_cons (root : Option Declaration) {paths : List (List String)} (h : ∀ path ∈ paths, path ≠ [])
    (row : List (List String × Option Declaration)) :
    paths.foldl Branch.touch (([], root) :: row) = ([], root) :: paths.foldl Branch.touch row := by
  induction paths generalizing row with
  | nil => rfl
  | cons path paths ih =>
    have hroot : ∀ entry ∈ [(([] : List String), root)], pathBefore entry.1 path = true := by
      cases path with
      | nil => exact absurd rfl (h [] List.mem_cons_self)
      | cons word path => simp [pathBefore]
    have htouch : Branch.touch (([], root) :: row) path = ([], root) :: Branch.touch row path :=
      Ordered.update_append_of_before pathBefore_strictOrder _ hroot row
    rw [List.foldl_cons, List.foldl_cons, htouch, ih fun other hother => h other (List.mem_cons_of_mem _ hother)]

/-- The declaration at a path of a branch stands in its row, where the command itself has the empty path. -/
theorem Branch.join_find?_eq_declared? (branch : Branch) (path : List String) :
    (Ordered.find? path (([], branch.root) :: branch.nodes)).join = branch.declared? path := by
  cases path with
  | nil => rfl
  | cons word path => rw [Ordered.find?, if_neg (by simp), declared?, if_neg (by simp)]

/-- Putting a declaration into the row of a branch places it in the branch. -/
theorem Branch.put_eq_place (branch : Branch) (d : Declaration) :
    Ordered.put pathBefore d.path (some d) (([], branch.root) :: branch.nodes)
      = ([], (branch.place d).root) :: (branch.place d).nodes := by
  rw [place]
  cases hpath : d.path with
  | nil => simp [Ordered.put, Ordered.update, pathBefore_strictOrder.irrefl]
  | cons word path =>
    have hroot : ∀ entry ∈ [(([] : List String), branch.root)], pathBefore entry.1 (word :: path) = true := by
      simp [pathBefore]
    exact Ordered.update_append_of_before pathBefore_strictOrder _ hroot branch.nodes

/-- Placing a declaration notes no package. -/
theorem Branch.packages_place (branch : Branch) (d : Declaration) :
    (branch.place d).packages = branch.packages := by
  rw [place]
  split
  · rfl
  · rfl

namespace NestedEntry

/-- An entry with a declaration and its package. -/
def record (entry : NestedEntry) (d : Declaration) : NestedEntry where
  node := (entry.node.descend (NestedNode.place d) d.path).1
  packages := Ordered.insertDistinct Ordered.stringBefore d.binding.package entry.packages

/-- The row of a node, once the starts of a path are touched, is that of the grown branch. -/
theorem foldl_touch_entries (entry : NestedEntry) (d : Declaration) :
    (starts d.path).foldl Branch.touch entry.node.entries
      = ([], ((entry.toBranch.notePackage d.binding.package).grow d.path).root)
        :: ((entry.toBranch.notePackage d.binding.package).grow d.path).nodes :=
  foldl_touch_cons _ (fun _ hpath => (mem_starts.mp hpath).1) _

/-- A walk down a path finds what the branch has there. -/
theorem snd_descend {entry : NestedEntry} (h : entry.node.children.IsOrdered) (d : Declaration) :
    (entry.node.descend (NestedNode.place d) d.path).2
      = (((entry.toBranch.notePackage d.binding.package).grow d.path).declared? d.path).map
          (CommandTree.duplicate · d) := by
  rw [(NestedNode.descend_place h d d.path).2, foldl_touch_entries, Branch.join_find?_eq_declared?]

/-- An insertion into an entry is one into its branch. -/
theorem toBranch_record {entry : NestedEntry} (h : entry.node.children.IsOrdered) (d : Declaration) :
    (entry.record d).toBranch = entry.toBranch.record d := by
  have hrow := (NestedNode.descend_place h d d.path).1
  rw [foldl_touch_entries, NestedNode.placed, Branch.join_find?_eq_declared?, Branch.put_eq_place] at hrow
  rw [Branch.record]
  generalize hgrown : (entry.toBranch.notePackage d.binding.package).grow d.path = grown at hrow ⊢
  have hpackages : (entry.record d).packages = grown.packages := by
    rw [← hgrown]
    rfl
  -- The row says what the node holds, and the packages are the same.
  have hbranch : ∀ branch : Branch, (entry.record d).node.entries = ([], branch.root) :: branch.nodes →
      branch.packages = grown.packages → (entry.record d).toBranch = branch := by
    intro branch hentries hnoted
    obtain ⟨hroot, hnodes⟩ := List.cons.inj hentries
    rw [toBranch, (Prod.mk.inj hroot).2, hnodes, hpackages, ← hnoted]
  cases hdeclared : grown.declared? d.path with
  | some existing =>
    rw [hdeclared] at hrow
    exact hbranch grown hrow rfl
  | none =>
    rw [hdeclared] at hrow
    exact hbranch (grown.place d) hrow (grown.packages_place d)

end NestedEntry

/-! ## Trees -/

namespace NestedTree

variable {tree : NestedTree}

/-- What is declared of a command in the row of paths. -/
theorem branch_toCommandTree (tree : NestedTree) (command : String) :
    tree.toCommandTree.branch command = (tree.entry command).toBranch := by
  have hfind : Ordered.find? command (tree.commands.map fun entry => (entry.1, entry.2.toBranch))
      = (Ordered.find? command tree.commands).map NestedEntry.toBranch :=
    Ordered.find?_map_entry Function.injective_id NestedEntry.toBranch command tree.commands
  rw [CommandTree.branch, toCommandTree, hfind, entry]
  cases Ordered.find? command tree.commands with
  | none => rfl
  | some entry => rfl

/-- The nodes of each command stand in order. -/
theorem IsOrdered.entry (h : tree.IsOrdered) (command : String) :
    (tree.entry command).node.children.IsOrdered := by
  rw [NestedTree.entry]
  cases hfound : Ordered.find? command tree.commands with
  | none => exact trivial
  | some entry => exact h entry (List.mem_map_of_mem (Ordered.mem_of_find?_eq_some hfound))

/-- One insertion into a nested tree: the command of the declaration gets it. -/
theorem commands_insert (tree : NestedTree) (d : Declaration) :
    (tree.insert d).1.commands
      = Ordered.put Ordered.stringBefore d.command ((tree.entry d.command).record d) tree.commands := rfl

/-- Insertions keep nodes in order. -/
theorem IsOrdered.insert (h : tree.IsOrdered) (d : Declaration) : (tree.insert d).1.IsOrdered := by
  intro entry hentry
  obtain ⟨command, hcommand, rfl⟩ := List.mem_map.mp hentry
  rcases Ordered.mem_put hcommand with hold | hnew
  · exact h _ (List.mem_map_of_mem hold)
  · rw [hnew]
    exact NestedNode.isOrdered_descend (h.entry d.command) d.path

/-- An insertion into a nested tree is one into the rows of paths. -/
theorem insert_fst (h : tree.IsOrdered) (d : Declaration) :
    (tree.insert d).1.toCommandTree = (tree.toCommandTree.insert d).1 := by
  have hput : Ordered.put Ordered.stringBefore d.command ((tree.entry d.command).record d).toBranch
        (tree.commands.map fun entry => (entry.1, entry.2.toBranch))
      = (Ordered.put Ordered.stringBefore d.command ((tree.entry d.command).record d) tree.commands).map
          fun entry => (entry.1, entry.2.toBranch) :=
    Ordered.update_map_entry (f := id) (g := NestedEntry.toBranch) (fun _ _ => rfl) (fun _ => rfl) tree.commands
  rw [CommandTree.insert_fst, branch_toCommandTree, ← NestedEntry.toBranch_record (h.entry d.command),
    toCommandTree, toCommandTree, commands_insert, hput]

/-- Both trees refuse the same declarations with the same error. -/
theorem insert_snd (h : tree.IsOrdered) (d : Declaration) :
    (tree.insert d).2 = (tree.toCommandTree.insert d).2 := by
  have hnested : (tree.insert d).2 = ((tree.entry d.command).node.descend (NestedNode.place d) d.path).2 := rfl
  rw [hnested, NestedEntry.snd_descend (h.entry d.command), CommandTree.insert, branch_toCommandTree]
  split
  · next existing hdeclared => rw [hdeclared, Option.map_some]
  · next hdeclared => rw [hdeclared, Option.map_none]

/-- A declaration counts if it is not refused. -/
theorem declarations_insert (tree : NestedTree) (d : Declaration) :
    (tree.insert d).1.declarations
      = if (tree.insert d).2 = none then tree.declarations + 1 else tree.declarations := by
  simp [insert]

/-! ### Runs of insertions -/

/-- Insert declarations one after another, whether they are accepted or not. -/
def insertEach (tree : NestedTree) (ds : List Declaration) : NestedTree :=
  ds.foldl (fun grown d => (grown.insert d).1) tree

/-- An empty tree is in order. -/
theorem isOrdered_empty : ({} : NestedTree).IsOrdered := by
  simp [IsOrdered]

/-- Runs of insertions keep nodes in order. -/
theorem IsOrdered.insertEach (h : tree.IsOrdered) (ds : List Declaration) : (tree.insertEach ds).IsOrdered := by
  induction ds generalizing tree with
  | nil => exact h
  | cons d ds ih => exact ih (h.insert d)

/-- A run of insertions into a nested tree is one into the rows of paths. -/
theorem toCommandTree_insertEach (h : tree.IsOrdered) (ds : List Declaration) :
    (tree.insertEach ds).toCommandTree = tree.toCommandTree.insertEach ds := by
  induction ds generalizing tree with
  | nil => rfl
  | cons d ds ih =>
    rw [insertEach, List.foldl_cons, ← insertEach, ih (h.insert d), insert_fst h, CommandTree.insertEach,
      CommandTree.insertEach, List.foldl_cons]

/-- A run counts the declarations that are accepted. -/
theorem declarations_insertEach (h : tree.IsOrdered) (ds : List Declaration) :
    (tree.insertEach ds).declarations = tree.declarations + (tree.toCommandTree.accepted ds).length := by
  induction ds generalizing tree with
  | nil => rfl
  | cons d ds ih =>
    rw [insertEach, List.foldl_cons, ← insertEach, ih (h.insert d), declarations_insert, insert_fst h,
      insert_snd h, CommandTree.accepted]
    cases hinsert : tree.toCommandTree.insert d with
    | mk next error =>
      cases error with
      | none =>
        dsimp only
        rw [if_pos rfl, List.length_cons]
        omega
      | some error => rfl

/-- The count of a nested tree is the number of declarations in it. -/
theorem declarations_eq_size (ds : List Declaration) :
    (({} : NestedTree).insertEach ds).declarations = (({} : NestedTree).insertEach ds).toCommandTree.size := by
  rw [declarations_insertEach isOrdered_empty, toCommandTree_insertEach isOrdered_empty]
  exact (Nat.zero_add _).trans (CommandTree.size_eq_length_accepted ds).symm

/-- A run that ends with the first refusal inserts the declarations up to it. -/
theorem exists_insertAll_eq (tree : NestedTree) (ds : List Declaration) :
    ∃ es, es <+: ds ∧ (tree.insertAll ds).1 = tree.insertEach es := by
  induction ds generalizing tree with
  | nil => exact ⟨[], List.prefix_refl _, rfl⟩
  | cons d ds ih =>
    rw [insertAll]
    cases hinsert : tree.insert d with
    | mk next error =>
      have hnext : next = (tree.insert d).1 := by rw [hinsert]
      cases error with
      | none =>
        obtain ⟨es, hes, hrun⟩ := ih next
        refine ⟨d :: es, List.cons_prefix_cons.mpr ⟨rfl, hes⟩, ?_⟩
        rw [insertEach, List.foldl_cons, ← hnext]
        exact hrun
      | some error =>
        refine ⟨[d], List.cons_prefix_cons.mpr ⟨rfl, List.nil_prefix⟩, ?_⟩
        rw [insertEach, List.foldl_cons, ← hnext, List.foldl_nil]

/-- So do runs that end with the first refusal. -/
theorem IsOrdered.insertAll (h : tree.IsOrdered) (ds : List Declaration) : (tree.insertAll ds).1.IsOrdered := by
  obtain ⟨es, -, hrun⟩ := exists_insertAll_eq tree ds
  rw [hrun]
  exact h.insertEach es

/-- Up to the first refusal both trees hold the same, and they refuse the same declaration. -/
theorem toCommandTree_insertAll (h : tree.IsOrdered) (ds : List Declaration) :
    (tree.insertAll ds).1.toCommandTree = (tree.toCommandTree.insertAll ds).1 ∧
      (tree.insertAll ds).2 = (tree.toCommandTree.insertAll ds).2 := by
  induction ds generalizing tree with
  | nil => exact ⟨rfl, rfl⟩
  | cons d ds ih =>
    have hfst := insert_fst h d
    have hsnd := insert_snd h d
    have hordered := h.insert d
    rw [insertAll, CommandTree.insertAll]
    cases hnested : tree.insert d with
    | mk next error =>
      cases hflat : tree.toCommandTree.insert d with
      | mk flat refused =>
        rw [hnested, hflat] at hfst hsnd
        rw [hnested] at hordered
        dsimp only at hfst hsnd hordered
        subst hfst hsnd
        cases error with
        | none => exact ih hordered
        | some error => exact ⟨rfl, rfl⟩

/-- Whatever is inserted into an empty nested tree, up to the first refusal: it holds the rows of paths, refuses
what they refuse, and counts the declarations in them. -/
theorem insertAll_eq (ds : List Declaration) :
    (({} : NestedTree).insertAll ds).1.toCommandTree = (({} : CommandTree).insertAll ds).1 ∧
      (({} : NestedTree).insertAll ds).2 = (({} : CommandTree).insertAll ds).2 ∧
        (({} : NestedTree).insertAll ds).1.declarations = (({} : CommandTree).insertAll ds).1.size := by
  obtain ⟨htree, herror⟩ := toCommandTree_insertAll isOrdered_empty ds
  obtain ⟨es, -, hrun⟩ := exists_insertAll_eq {} ds
  refine ⟨htree, herror, ?_⟩
  have hsize := declarations_eq_size es
  rw [← hrun, htree] at hsize
  exact hsize

end NestedTree

end CommandDoc
