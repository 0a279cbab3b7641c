import CommandDoc.Proofs.Build.Faults
import CommandDoc.Proofs.Build.Lookup
import CommandDoc.Proofs.Model.Validity

/-!
# Words that name siblings

The check of siblings looks through their names and aliases as one list, and reports a word for every time that
it occurs again.  A word occurs again if two siblings answer to it, but also if one sibling has it twice, as its
name and as an alias.

Main definitions:

- `Node.NamesTwice`: a node that has a word twice.
- `Command.HasSiblings`: the nodes directly below the command or a node, with its label.

Main results:

- Theorem `two_le_count_flatMap_iff`: when an element occurs twice in lists put together.
- Theorem `aliasCollision_mem_faults_iff`: which words of a flattened command are reported.
-/

namespace CommandDoc

/-! ## Repetition -/

section Repetition

variable {α β : Type} [BEq α] [DecidableEq β]

theorem count_flatMap_of_mem {xs : List β} {x : β} (hx : x ∈ xs) (f : β → List α) (a : α) :
    (xs.flatMap f).count a = (f x).count a + ((xs.erase x).flatMap f).count a := by
  rw [((List.perm_cons_erase hx).flatMap_right f).count_eq, List.flatMap_cons, List.count_append]

variable [LawfulBEq α]

/-- An element occurs twice in the lists of different things put together exactly if it occurs in two of the
lists, or twice in one. -/
theorem two_le_count_flatMap_iff {xs : List β} (h : xs.Nodup) {f : β → List α} {a : α} :
    2 ≤ (xs.flatMap f).count a ↔
      (∃ x ∈ xs, ∃ y ∈ xs, x ≠ y ∧ a ∈ f x ∧ a ∈ f y) ∨ ∃ x ∈ xs, 2 ≤ (f x).count a := by
  constructor
  · intro hcount
    obtain ⟨x, hx, hmem⟩ := List.mem_flatMap.mp (List.one_le_count_iff.mp (Nat.le_of_succ_le hcount))
    by_cases htwice : 2 ≤ (f x).count a
    · exact Or.inr ⟨x, hx, htwice⟩
    · -- There is at most one occurrence in this list, so there is another one elsewhere.
      rw [count_flatMap_of_mem hx] at hcount
      have helse : a ∈ (xs.erase x).flatMap f := List.one_le_count_iff.mp (by omega)
      obtain ⟨y, hy, hother⟩ := List.mem_flatMap.mp helse
      obtain ⟨hne, hy⟩ := h.mem_erase_iff.mp hy
      exact Or.inl ⟨x, hx, y, hy, hne.symm, hmem, hother⟩
  · rintro (⟨x, hx, y, hy, hne, hmem, hother⟩ | ⟨x, hx, htwice⟩)
    · have helse : a ∈ (xs.erase x).flatMap f :=
        List.mem_flatMap.mpr ⟨y, (List.mem_erase_of_ne hne.symm).mpr hy, hother⟩
      rw [count_flatMap_of_mem hx]
      have hone := List.one_le_count_iff.mpr hmem
      have hmore := List.one_le_count_iff.mpr helse
      omega
    · rw [count_flatMap_of_mem hx]
      omega

end Repetition

/-! ## Siblings -/

/-- A node that has a word twice: as its name and as an alias, or as two aliases. -/
def Node.NamesTwice (node : Node) (word : String) : Prop :=
  node.name = word ∧ word ∈ node.aliases ∨ 2 ≤ node.aliases.count word

theorem Node.namesTwice_iff {node : Node} {word : String} :
    node.NamesTwice word ↔ 2 ≤ node.words.count word := by
  have hmem : word ∈ node.aliases ↔ 1 ≤ node.aliases.count word := List.one_le_count_iff.symm
  rw [NamesTwice, words, List.count_cons, hmem]
  by_cases hname : node.name = word
  · simp only [hname, true_and, beq_self_eq_true, if_true]
    omega
  · simp [hname]

/-- A word is reported of different siblings exactly if two of them answer to it, or one has it twice. -/
theorem aliasCollision_mem_siblingFaults_iff {path word : String} {siblings : List Node}
    (h : siblings.Nodup) : .aliasCollision path word ∈ siblingFaults path siblings ↔
      (∃ child ∈ siblings, ∃ other ∈ siblings, child ≠ other ∧
        child.answersTo word = true ∧ other.answersTo word = true) ∨
        ∃ child ∈ siblings, child.NamesTwice word := by
  have hreported : .aliasCollision path word ∈ siblingFaults path siblings ↔
      word ∈ repeated (siblings.flatMap Node.words) := by
    simp [siblingFaults]
  rw [hreported, mem_repeated_iff, two_le_count_flatMap_iff h]
  simp only [Node.answersTo_iff, Node.namesTwice_iff]

/-! ## Commands -/

/-- Faults of positions say nothing about words. -/
theorem aliasCollision_not_mem_positionFaults {path label word : String} {taken : List UInt32}
    {parameters : List Parameter} : .aliasCollision label word ∉ positionFaults path taken parameters := by
  induction parameters generalizing taken with
  | nil => simp [positionFaults]
  | cons p parameters ih =>
    rw [positionFaults]
    cases p.takenPosition? with
    | none => simp [ih]
    | some position =>
      dsimp only
      split
      · simp [ih]
      · split
        · simp [ih]
        · simp [ih]

theorem aliasCollision_not_mem_parameterFaults {path label word : String} {parameters : List Parameter} :
    .aliasCollision label word ∉ parameterFaults path parameters := by
  simp [parameterFaults, aliasCollision_not_mem_positionFaults]

/-- The check of siblings reports words with the label of what they stand below. -/
theorem label_eq_of_mem_siblingFaults {path label word : String} {siblings : List Node}
    (h : .aliasCollision label word ∈ siblingFaults path siblings) : label = path := by
  simp only [siblingFaults, List.mem_map, Fault.aliasCollision.injEq] at h
  obtain ⟨-, -, rfl, -⟩ := h
  rfl

namespace Command

/-- The nodes directly below the command, or below one of its nodes, and the label of what they stand
below. -/
def HasSiblings (command : Command) (label : String) (siblings : List Node) : Prop :=
  label = command.name ∧ siblings = command.childNodes ∨
    ∃ node ∈ command.nodes, label = node.label ∧ siblings = command.childNodesOf node

/-- Words are reported by the check of siblings alone. -/
theorem aliasCollision_mem_faults_iff_siblingFaults {command : Command}
    (hname : Text.isBlankText command.name.toList = false) (hdangling : command.isDangling = false)
    {label word : String} : .aliasCollision label word ∈ command.faults ↔
      ∃ siblings, command.HasSiblings label siblings ∧
        .aliasCollision label word ∈ siblingFaults label siblings := by
  have hnode : ∀ node, .aliasCollision label word ∈ command.nodeFaults node ↔
      .aliasCollision label word ∈ siblingFaults node.label (command.childNodesOf node) := by
    intro node
    simp [nodeFaults, aliasCollision_not_mem_parameterFaults]
  rw [faults_eq hname hdangling, List.mem_append, List.mem_append, List.mem_flatMap]
  simp only [aliasCollision_not_mem_parameterFaults, false_or, hnode]
  constructor
  · rintro (hroot | ⟨node, hmem, hfault⟩)
    · obtain rfl := label_eq_of_mem_siblingFaults hroot
      exact ⟨_, Or.inl ⟨rfl, rfl⟩, hroot⟩
    · obtain rfl := label_eq_of_mem_siblingFaults hfault
      exact ⟨_, Or.inr ⟨node, hmem, rfl, rfl⟩, hfault⟩
  · rintro ⟨siblings, ⟨rfl, rfl⟩ | ⟨node, hmem, rfl, rfl⟩, hfault⟩
    · exact Or.inl hfault
    · exact Or.inr ⟨node, hmem, hfault⟩

/-- The nodes below a path are all different. -/
theorem LaidOut.nodup_of_hasSiblings {command : Command} {paths : List (List String)}
    (laid : command.LaidOut paths) (row : IsPathRow paths) {label : String} {siblings : List Node}
    (h : command.HasSiblings label siblings) : siblings.Nodup := by
  have hbelow : ∀ path, (command.nodes.filter fun child => child.path.dropLast == path).Nodup := by
    intro path
    have hnames := laid.pairwise_name_of_dropLast row path
    rw [List.pairwise_map] at hnames
    refine hnames.imp ?_
    rintro child _ hlt rfl
    exact String.lt_irrefl _ hlt
  rcases h with ⟨-, rfl⟩ | ⟨node, hnode, -, rfl⟩
  · rw [laid.childNodes_eq]
    exact hbelow []
  · rw [laid.childNodesOf_eq hnode]
    exact hbelow node.path

end Command

/-! ## Flattened trees -/

/-- Of a flattened command whose name is not blank, a word is reported below a label exactly if there, below
the command or a node, two children answer to it or one child has it twice. -/
theorem aliasCollision_mem_faults_iff {ds : List Declaration} {reserved : List String} {model : Model}
    (h : (({} : CommandTree).insertEach ds).flatten reserved = .ok model) {command : Command}
    (hcommand : command ∈ model.commands) (hname : ∃ c ∈ command.name.toList, Text.isBlank c = false)
    (label word : String) : .aliasCollision label word ∈ command.faults ↔
      ∃ siblings, command.HasSiblings label siblings ∧
        ((∃ child ∈ siblings, ∃ other ∈ siblings, child ≠ other ∧
          child.answersTo word = true ∧ other.answersTo word = true) ∨
          ∃ child ∈ siblings, child.NamesTwice word) := by
  obtain ⟨row, hflatten⟩ := CommandTree.flatten_branch_name h hcommand
  have laid := Branch.laidOut_of_flatten hflatten
  rw [Command.aliasCollision_mem_faults_iff_siblingFaults (Text.isBlankText_eq_false_iff.mpr hname)
    (laid.isDangling_eq_false row)]
  refine exists_congr fun siblings => and_congr_right fun hsiblings => ?_
  exact aliasCollision_mem_siblingFaults_iff (laid.nodup_of_hasSiblings row hsiblings)

/-- A subcommand that has its own name as an alias, and has no sibling. -/
def selfNamedDeclarations : List Declaration :=
  [{ Declaration.plain "app" ["list"] "List" with aliases := ["list", "ls"] }]

/-- The name is reported, though no other subcommand answers to it. -/
theorem aliasCollision_mem_faults_iff_selfNamed :
    ∃ model, (({} : CommandTree).insertEach selfNamedDeclarations).flatten [] = .ok model ∧
      ∃ command ∈ model.commands, command.nodes.length = 1 ∧
        .aliasCollision "app" "list" ∈ command.faults := by
  have hok : ((({} : CommandTree).insertEach selfNamedDeclarations).flatten []).map (fun model =>
      decide (∃ command ∈ model.commands, command.name = "app" ∧ command.nodes.length = 1 ∧
        ∃ child ∈ command.childNodes, child.name = "list" ∧ "list" ∈ child.aliases)) = .ok true := by
    decide +kernel
  obtain ⟨model, hmodel, hshape⟩ := map_eq_ok_iff.mp hok
  obtain ⟨command, hcommand, hname, hlength, child, hchild, htwice⟩ := of_decide_eq_true hshape
  refine ⟨model, hmodel, command, hcommand, hlength, ?_⟩
  have hvisible : ∃ c ∈ command.name.toList, Text.isBlank c = false := by
    rw [hname]
    exact ⟨'a', by simp, by decide⟩
  exact (aliasCollision_mem_faults_iff hmodel hcommand hvisible "app" "list").mpr
    ⟨_, Or.inl ⟨hname.symm, rfl⟩, Or.inr ⟨child, hchild, Or.inl htwice⟩⟩

end CommandDoc
