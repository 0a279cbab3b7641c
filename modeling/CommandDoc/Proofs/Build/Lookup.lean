import Mathlib.Data.List.Induction
import CommandDoc.Proofs.Build.Assembly
import CommandDoc.Proofs.Model.Validation
import CommandDoc.Proofs.Tree.Scope

/-!
# Lookup in built models

Lookup takes the first node that answers to a word, and goes on below it.  No word names two siblings of a
model without faults, so the first node that answers is the only one, and lookup finds a node exactly if the
words name it and the nodes above it.

Main definitions:

- `Command.Reaches`: words that name a node and the nodes above it, one by one.
- `Command.IsUnambiguous`: no word names two siblings.

Main results:

- Theorem `find?_answersTo_eq_some_iff`: the first sibling that answers is any that does.
- Theorem `Command.find?_concat`: one more word is looked up below the node found so far.
- Theorem `Command.LaidOut.reaches_concat_iff`: what one more word reaches.
- Theorem `hasExactLookup_of_build`: lookup in the commands of a built model is exact.
-/

namespace CommandDoc

/-! ## Words and siblings -/

theorem Node.answersTo_iff {node : Node} {word : String} :
    node.answersTo word = true ↔ word ∈ node.words := by
  rw [answersTo, words, Bool.or_eq_true, beq_iff_eq, List.contains_iff_mem, List.mem_cons, @eq_comm _ word]

/-- If no word names two siblings, the first one that answers to a word is any that does. -/
theorem find?_answersTo_eq_some_iff {siblings : List Node} (h : (siblings.flatMap Node.words).Nodup)
    {word : String} {node : Node} :
    siblings.find? (·.answersTo word) = some node ↔ node ∈ siblings ∧ node.answersTo word = true := by
  induction siblings with
  | nil => simp
  | cons first siblings ih =>
    rw [List.flatMap_cons, List.nodup_append] at h
    rcases h with ⟨-, hrest, hapart⟩
    rw [List.find?_cons]
    cases hfirst : first.answersTo word with
    | true =>
      simp only [Option.some.injEq, List.mem_cons]
      constructor
      · rintro rfl
        exact ⟨Or.inl rfl, hfirst⟩
      · rintro ⟨rfl | hmem, hanswers⟩
        · rfl
        · -- The word would name both the first sibling and a later one.
          have hlater : word ∈ siblings.flatMap Node.words :=
            List.mem_flatMap.mpr ⟨node, hmem, Node.answersTo_iff.mp hanswers⟩
          exact absurd rfl (hapart word (Node.answersTo_iff.mp hfirst) word hlater)
    | false =>
      simp only [ih hrest, List.mem_cons]
      constructor
      · rintro ⟨hmem, hanswers⟩
        exact ⟨Or.inr hmem, hanswers⟩
      · rintro ⟨rfl | hmem, hanswers⟩
        · rw [hfirst] at hanswers
          cases hanswers
        · exact ⟨hmem, hanswers⟩

/-! ## One more word -/

namespace Command

theorem findFrom?_concat (command : Command) (siblings : List Node) {words : List String} (word : String)
    (hwords : words ≠ []) : command.findFrom? siblings (words ++ [word])
      = (command.findFrom? siblings words).bind fun node =>
          (command.childNodesOf node).find? (·.answersTo word) := by
  induction words generalizing siblings with
  | nil => exact absurd rfl hwords
  | cons first rest ih =>
    cases rest with
    | nil =>
      rw [List.cons_append, List.nil_append, findFrom?, findFrom?]
      · cases siblings.find? (·.answersTo first) with
        | none => rfl
        | some node => rfl
      · simp
    | cons second rest =>
      rw [List.cons_append, findFrom?, findFrom?]
      · cases siblings.find? (·.answersTo first) with
        | none => rfl
        | some node => exact ih (command.childNodesOf node) (by simp)
      · simp
      · simp

/-- A word behind others is looked up below the node that these find. -/
theorem find?_concat (command : Command) {words : List String} (word : String) (hwords : words ≠ []) :
    command.find? (words ++ [word])
      = (command.find? words).bind fun node => (command.childNodesOf node).find? (·.answersTo word) :=
  command.findFrom?_concat command.childNodes word hwords

/-- Words that name a node and the nodes above it: there are as many as its path has, and each is the name
or another name of the node at the start of the path that ends there. -/
structure Reaches (command : Command) (words : List String) (node : Node) : Prop where
  /-- The node is one of the command. -/
  mem : node ∈ command.nodes
  /-- Its path has as many words. -/
  length_eq : node.path.length = words.length
  /-- Each word names the node it leads to. -/
  names : ∀ i (hi : i < words.length), ∃ step ∈ command.nodes, step.path = node.path.take (i + 1) ∧
    (words[i] = step.name ∨ words[i] ∈ step.aliases)

/-- No word names two siblings. -/
structure IsUnambiguous (command : Command) : Prop where
  /-- Not directly below the command. -/
  roots : (command.childNodes.flatMap Node.words).Nodup
  /-- Not below a node. -/
  children : ∀ node ∈ command.nodes, ((command.childNodesOf node).flatMap Node.words).Nodup

/-- Commands without faults are unambiguous. -/
theorem isUnambiguous_of_faults {command : Command} (h : command.faults = []) : command.IsUnambiguous := by
  rcases faults_eq_nil_iff.mp h with ⟨-, -, -, hroots, hnodes⟩
  exact ⟨hroots, fun node hnode => (nodeFaults_eq_nil_iff.mp (hnodes node hnode)).2.2⟩

end Command

/-! ## Lookup along paths -/

/-- A path and its front start alike. -/
theorem take_dropLast {path : List String} {i : Nat} (h : i + 1 < path.length) :
    path.dropLast.take (i + 1) = path.take (i + 1) := by
  rw [List.dropLast_eq_take, List.take_take, Nat.min_eq_left (by omega)]

namespace Command.LaidOut

variable {command : Command} {paths : List (List String)}

/-- The last word names the node that is reached. -/
theorem answersTo_of_reaches (laid : command.LaidOut paths) (row : IsPathRow paths) {words : List String}
    {word : String} {node : Node} (h : command.Reaches (words ++ [word]) node) :
    node.answersTo word = true := by
  rcases h.names words.length (by simp) with ⟨step, hstep, hpath, hnames⟩
  have hlength : node.path.length = words.length + 1 := by simpa using h.length_eq
  rw [← hlength, List.take_length] at hpath
  rw [laid.eq_of_path_eq row hstep h.mem hpath, List.getElem_concat_length rfl] at hnames
  exact Node.answersTo_iff.mpr (List.mem_cons.mpr hnames)

/-- A single word reaches a node directly below the command that answers to it. -/
theorem reaches_singleton_iff (laid : command.LaidOut paths) (row : IsPathRow paths) {word : String}
    {node : Node} :
    command.Reaches [word] node ↔ node ∈ command.childNodes ∧ node.answersTo word = true := by
  rw [laid.childNodes_eq, List.mem_filter, beq_iff_eq, ← List.length_eq_zero_iff, List.length_dropLast]
  constructor
  · intro h
    have hreaches : command.Reaches ([] ++ [word]) node := h
    refine ⟨⟨h.mem, ?_⟩, laid.answersTo_of_reaches row hreaches⟩
    rw [h.length_eq]
    rfl
  · rintro ⟨⟨hmem, hfront⟩, hanswers⟩
    have hpos := List.length_pos_of_ne_nil (row.ne_nil _ (laid.path_mem hmem))
    have hlength : node.path.length = 1 := by omega
    refine ⟨hmem, hlength, ?_⟩
    intro i hi
    rw [List.length_singleton, Nat.lt_one_iff] at hi
    subst hi
    refine ⟨node, hmem, ?_, List.mem_cons.mp (Node.answersTo_iff.mp hanswers)⟩
    rw [Nat.zero_add, ← hlength, List.take_length]

/-- Words that reach a node reach, without the last one, the node above it. -/
theorem reaches_of_reaches_concat (laid : command.LaidOut paths) (row : IsPathRow paths)
    {words : List String} {word : String} {node : Node} (hwords : words ≠ [])
    (h : command.Reaches (words ++ [word]) node) :
    ∃ above, command.Reaches words above ∧ node.path.dropLast = above.path := by
  have hpos := List.length_pos_of_ne_nil hwords
  have hlength : node.path.length = words.length + 1 := by simpa using h.length_eq
  rcases laid.exists_parent row h.mem (by omega) with ⟨above, habove, -, -, -, hpath⟩
  have hshort : above.path.length = words.length := by
    rw [hpath, List.length_dropLast, hlength, Nat.add_sub_cancel]
  refine ⟨above, ⟨habove, hshort, ?_⟩, hpath.symm⟩
  intro i hi
  rcases h.names i (by simp; omega) with ⟨step, hstep, hstepPath, hnames⟩
  rw [List.getElem_append_left hi] at hnames
  rw [← take_dropLast (by omega), ← hpath] at hstepPath
  exact ⟨step, hstep, hstepPath, hnames⟩

/-- One more word reaches a node that answers to it, below the node that the words before it reach. -/
theorem reaches_concat_iff (laid : command.LaidOut paths) (row : IsPathRow paths) {words : List String}
    {word : String} {node : Node} (hwords : words ≠ []) :
    command.Reaches (words ++ [word]) node ↔ ∃ above, command.Reaches words above ∧
      node ∈ command.childNodesOf above ∧ node.answersTo word = true := by
  constructor
  · intro h
    rcases laid.reaches_of_reaches_concat row hwords h with ⟨above, habove, hfront⟩
    refine ⟨above, habove, ?_, laid.answersTo_of_reaches row h⟩
    rw [laid.childNodesOf_eq habove.mem, List.mem_filter, beq_iff_eq]
    exact ⟨h.mem, hfront⟩
  · rintro ⟨above, h, hmem, hanswers⟩
    rw [laid.childNodesOf_eq h.mem, List.mem_filter, beq_iff_eq] at hmem
    rcases hmem with ⟨hnode, hfront⟩
    have hpos := List.length_pos_of_ne_nil hwords
    have hshort : node.path.length - 1 = words.length := by
      rw [← List.length_dropLast, hfront, h.length_eq]
    have hlength : node.path.length = words.length + 1 := by omega
    refine ⟨hnode, by simpa using hlength, ?_⟩
    intro i hi
    rw [List.length_append, List.length_singleton] at hi
    by_cases hlast : i = words.length
    · subst hlast
      rw [List.getElem_concat_length rfl]
      refine ⟨node, hnode, ?_, List.mem_cons.mp (Node.answersTo_iff.mp hanswers)⟩
      rw [← hlength, List.take_length]
    · have hearlier : i < words.length := by omega
      rcases h.names i hearlier with ⟨step, hstep, hpath, hnames⟩
      rw [← hfront, take_dropLast (by omega)] at hpath
      rw [List.getElem_append_left hearlier]
      exact ⟨step, hstep, hpath, hnames⟩

/-- Lookup finds a node exactly if the words reach it. -/
theorem find?_eq_some_iff (laid : command.LaidOut paths) (row : IsPathRow paths)
    (unambiguous : command.IsUnambiguous) {words : List String} {node : Node} :
    command.find? words = some node ↔ command.Reaches words node := by
  induction words using List.reverseRecOn generalizing node with
  | nil =>
    constructor
    · intro h
      cases h
    · intro h
      exact absurd (List.eq_nil_of_length_eq_zero h.length_eq) (row.ne_nil _ (laid.path_mem h.mem))
  | append_singleton words word ih =>
    by_cases hwords : words = []
    · subst hwords
      rw [List.nil_append, laid.reaches_singleton_iff row, ← find?_answersTo_eq_some_iff unambiguous.roots]
      rfl
    · rw [find?_concat command word hwords, Option.bind_eq_some_iff, laid.reaches_concat_iff row hwords]
      apply exists_congr
      intro above
      rw [ih]
      apply and_congr_right
      intro habove
      exact find?_answersTo_eq_some_iff (unambiguous.children above habove.mem)

/-- Every node is reached by its own path. -/
theorem reaches_path (laid : command.LaidOut paths) (row : IsPathRow paths) {node : Node}
    (hnode : node ∈ command.nodes) : command.Reaches node.path node := by
  refine ⟨hnode, rfl, ?_⟩
  intro i hi
  have htake : node.path.take (i + 1) = node.path.take i ++ [node.path[i]] :=
    List.take_succ_eq_append_getElem hi
  have hne : node.path.take (i + 1) ≠ [] := by
    rw [htake]
    exact List.append_ne_nil_of_right_ne_nil _ (List.cons_ne_nil _ _)
  have hstart := row.closed node.path (laid.path_mem hnode) _ hne (List.take_prefix _ _)
  rcases laid.exists_node hstart with ⟨step, hstep, hpath⟩
  refine ⟨step, hstep, hpath, Or.inl ?_⟩
  rw [(laid.fits step hstep).name_eq, hpath, htake, List.getLastD_concat]

end Command.LaidOut

/-! ## Built models -/

/-- Lookup in a command is exact: words find the node that they reach, and there is at most one. -/
structure Command.HasExactLookup (command : Command) : Prop where
  /-- No words find nothing. -/
  find?_nil : command.find? [] = none
  /-- Words find a node exactly if they reach it. -/
  find?_eq_some_iff : ∀ words node, command.find? words = some node ↔ command.Reaches words node
  /-- Words reach at most one node. -/
  eq_of_reaches : ∀ words node other, command.Reaches words node → command.Reaches words other → node = other
  /-- Every node is found by its own path. -/
  find?_path : ∀ node ∈ command.nodes, command.find? node.path = some node

/-- Lookup in the commands of a built model is exact. -/
theorem hasExactLookup_of_build {units : List SourceUnit} {settings : Settings} {outcome : Outcome}
    (h : build units settings = .ok outcome) :
    ∀ command ∈ outcome.model.commands, command.HasExactLookup := by
  intro command hcommand
  rcases flatten_of_build h with ⟨hflatten, hfaults⟩
  rw [← CommandTree.insertEach_empty] at hflatten
  rcases CommandTree.flatten_branch_name hflatten hcommand with ⟨row, hbranch⟩
  have laid := Branch.laidOut_of_flatten hbranch
  have unambiguous : command.IsUnambiguous :=
    Command.isUnambiguous_of_faults ((Model.faults_eq_nil_iff.mp hfaults).2 command hcommand)
  have hfind : ∀ words node, command.find? words = some node ↔ command.Reaches words node :=
    fun _ _ => laid.find?_eq_some_iff row unambiguous
  refine ⟨rfl, hfind, ?_, fun node hnode => (hfind _ _).mpr (laid.reaches_path row hnode)⟩
  intro words node other hnode hother
  rw [← hfind] at hnode hother
  exact Option.some.inj (hnode.symm.trans hother)

/-- A unit with a command, a subcommand that has another name, and a subcommand below that one. -/
def remoteUnit : SourceUnit where
  package := "example.com/app"
  file := "main.go"
  functions :=
    [{ name := "Remote", doc := "Remote is a subcommand \x60app remote\x60 that manages\nAliases: r" },
      { name := "Add", doc := "Add is a subcommand \x60app remote add\x60 that adds\nAliases: new, plus" }]

/-- Its lookup is exact, and follows other names on the way and at the end. -/
theorem hasExactLookup_of_build_remote :
    ∃ outcome, build [remoteUnit] {} = .ok outcome ∧
      ∀ command ∈ outcome.model.commands, command.HasExactLookup ∧
        (command.find? ["r", "plus"]).map (·.path) = some ["remote", "add"] := by
  have hok : (build [remoteUnit] {}).map (fun outcome => decide (∀ command ∈ outcome.model.commands,
      (command.find? ["r", "plus"]).map (·.path) = some ["remote", "add"])) = .ok true := by
    decide +kernel
  rcases map_eq_ok_iff.mp hok with ⟨outcome, houtcome, hfound⟩
  refine ⟨outcome, houtcome, ?_⟩
  intro command hcommand
  exact ⟨hasExactLookup_of_build houtcome command hcommand, of_decide_eq_true hfound command hcommand⟩

end CommandDoc
