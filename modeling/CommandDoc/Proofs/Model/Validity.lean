import CommandDoc.Proofs.Model.Validation

/-!
# Valid models

The check of a model goes through commands, scopes and siblings, stops early at some faults and counts
others in two passes.  This module says what a model satisfies in which it finds nothing, for any model,
whether it was built or not, and without the check.

Main definitions:

- `IsValidScope`: what holds of the parameters of one command or node.
- `Command.IsValid` and `Model.IsValid`.

Main results:

- Theorem `positionFaults_eq_nil_iff`: when the parameters of a scope have no fault of position.
- Theorem `Command.isDangling_eq_false_iff`: when every number of a command points to a node.
- Theorem `Model.faults_eq_nil_iff_isValid`: the check finds nothing exactly in valid models.
-/

namespace CommandDoc

/-! ## Valid models -/

/-- The parameters of a command or a node fit together. -/
structure IsValidScope (parameters : List Parameter) : Prop where
  /-- What is repeated is an argument. -/
  positional_of_vararg : ∀ p ∈ parameters, p.vararg = true → p.positional = true
  /-- No argument stands at position zero. -/
  position_ne_zero : ∀ p ∈ parameters, p.positional = true → p.position ≠ some 0
  /-- No two arguments stand at one position. -/
  positions : ((parameters.filter (·.positional)).filterMap (·.position)).Nodup
  /-- No name reaches two of the flags that are declared here, or one of them twice. -/
  flags : ((parameters.filter fun p => !p.positional && !p.fromParent).flatMap (·.flagNames)).Nodup

/-- A command that can be called without ambiguity. -/
structure Command.IsValid (command : Command) : Prop where
  /-- Its name is not blank. -/
  name : ∃ c ∈ command.name.toList, Text.isBlank c = false
  /-- Its children are nodes. -/
  children_lt : ∀ id ∈ command.children, id < command.nodes.length
  /-- The children of nodes are nodes. -/
  node_children_lt : ∀ node ∈ command.nodes, ∀ id ∈ node.children, id < command.nodes.length
  /-- The parents of nodes are nodes. -/
  node_parent_lt : ∀ node ∈ command.nodes, ∀ id ∈ node.parent, id < command.nodes.length
  /-- Its own parameters fit together. -/
  scope : IsValidScope command.parameters
  /-- The parameters of each node fit together. -/
  node_scope : ∀ node ∈ command.nodes, IsValidScope node.parameters
  /-- No name reaches two of the flags that a node declares or that are handed down to it. -/
  node_flags : ∀ node ∈ command.nodes,
    ((node.parameters.filter fun p => !p.positional && !p.fromParent).flatMap (·.flagNames)
      ++ ((node.inherited.flatMap (·.parameters)).filter fun p => !p.positional).flatMap
          (·.flagNames)).Nodup
  /-- No word names two children of the command. -/
  words : (command.childNodes.flatMap fun child => child.name :: child.aliases).Nodup
  /-- No word names two children of a node. -/
  node_words : ∀ node ∈ command.nodes,
    ((command.childNodesOf node).flatMap fun child => child.name :: child.aliases).Nodup

/-- A model of valid commands with different names. -/
structure Model.IsValid (model : Model) : Prop where
  /-- The names of commands are different. -/
  names : (model.commands.map (·.name)).Nodup
  /-- Every command is valid. -/
  commands : ∀ command ∈ model.commands, command.IsValid

/-! ## Scopes -/

theorem Parameter.takenPosition?_eq_some_iff {p : Parameter} {position : UInt32} :
    p.takenPosition? = some position ↔ p.positional = true ∧ p.position = some position := by
  rw [takenPosition?]
  by_cases hpositional : p.positional = true
  · simp [hpositional]
  · simp [hpositional]

theorem filterMap_takenPosition? (parameters : List Parameter) :
    parameters.filterMap Parameter.takenPosition?
      = (parameters.filter (·.positional)).filterMap (·.position) := by
  rw [List.filterMap_filter]
  rfl

/-- Parameters without a fault of position are arguments if they are repeated, and not at position zero. -/
theorem positional_of_positionFaults {path : String} {taken : List UInt32} {parameters : List Parameter}
    (h : positionFaults path taken parameters = []) :
    ∀ p ∈ parameters, (p.vararg = true → p.positional = true) ∧ p.takenPosition? ≠ some 0 := by
  induction parameters generalizing taken with
  | nil => simp
  | cons p parameters ih =>
    rw [positionFaults] at h
    have hvararg : (if p.vararg && !p.positional then [Fault.varargNotPositional path p.name] else []) = []
        → p.vararg = true → p.positional = true := by
      intro hnone hrepeated
      by_contra hflag
      simp [hrepeated, hflag] at hnone
    rw [List.forall_mem_cons]
    cases htaken : p.takenPosition? with
    | none =>
      simp only [htaken, List.append_eq_nil_iff] at h
      exact ⟨⟨hvararg h.1, by simp⟩, ih h.2⟩
    | some position =>
      simp only [htaken, beq_iff_eq] at h
      by_cases hzero : position = 0
      · simp [hzero] at h
      · rw [if_neg hzero] at h
        by_cases hseen : taken.contains position = true
        · rw [if_pos hseen] at h
          simp at h
        · rw [if_neg hseen, List.append_eq_nil_iff] at h
          exact ⟨⟨hvararg h.1, by simpa using hzero⟩, ih h.2⟩

/-- Parameters have no fault of position exactly if what is repeated is an argument, no argument stands at
position zero, and no two at one position. -/
theorem positionFaults_eq_nil_iff {path : String} {parameters : List Parameter} :
    positionFaults path [] parameters = [] ↔
      (∀ p ∈ parameters, (p.vararg = true → p.positional = true) ∧ p.takenPosition? ≠ some 0) ∧
        (parameters.filterMap Parameter.takenPosition?).Nodup := by
  have hpositions (h : ∀ p ∈ parameters,
      (p.vararg = true → p.positional = true) ∧ p.takenPosition? ≠ some 0) :
      positionFaults path [] parameters = [] ↔ (parameters.filterMap Parameter.takenPosition?).Nodup := by
    rw [positionFaults_eq_map h, List.map_eq_nil_iff, ← repeated, repeated_eq_nil_iff]
  constructor
  · intro h
    have hparameters := positional_of_positionFaults h
    exact ⟨hparameters, (hpositions hparameters).mp h⟩
  · rintro ⟨hparameters, hnodup⟩
    exact (hpositions hparameters).mpr hnodup

/-- The flags that a scope brings are those that are neither arguments nor declared above. -/
theorem ownFlagNames_eq (parameters : List Parameter) :
    ownFlagNames parameters
      = (parameters.filter fun p => !p.positional && !p.fromParent).flatMap (·.flagNames) := by
  rw [ownFlagNames, flagNamesOf, List.filter_filter]
  rfl

theorem Node.inheritedFlagNames_eq (node : Node) :
    node.inheritedFlagNames
      = ((node.inherited.flatMap (·.parameters)).filter fun p => !p.positional).flatMap (·.flagNames) := by
  rw [inheritedFlagNames, List.filter_flatMap, List.flatMap_assoc]
  rfl

/-- Parameters have no fault exactly if they fit together. -/
theorem parameterFaults_eq_nil_iff_isValidScope (path : String) (parameters : List Parameter) :
    parameterFaults path parameters = [] ↔ IsValidScope parameters := by
  rw [parameterFaults_eq_nil_iff, positionFaults_eq_nil_iff, filterMap_takenPosition?, ownFlagNames_eq]
  constructor
  · rintro ⟨⟨hparameters, hpositions⟩, hflags⟩
    refine ⟨fun p hp => (hparameters p hp).1, ?_, hpositions, hflags⟩
    intro p hp hpositional hzero
    exact (hparameters p hp).2 (Parameter.takenPosition?_eq_some_iff.mpr ⟨hpositional, hzero⟩)
  · intro valid
    refine ⟨⟨fun p hp => ⟨valid.positional_of_vararg p hp, ?_⟩, valid.positions⟩, valid.flags⟩
    intro hzero
    rcases Parameter.takenPosition?_eq_some_iff.mp hzero with ⟨hpositional, hposition⟩
    exact valid.position_ne_zero p hp hpositional hposition

/-! ## Commands -/

theorem Text.isBlankText_eq_false_iff {cs : List Char} :
    isBlankText cs = false ↔ ∃ c ∈ cs, isBlank c = false := by
  rw [isBlankText, List.all_eq_false]
  simp only [Bool.not_eq_true]

namespace Command

variable {command : Command}

/-- A number points to a node exactly if it is less than the number of nodes. -/
theorem isNone_node?_eq_false_iff {id : Nat} :
    (command.node? id).isNone = false ↔ id < command.nodes.length := by
  rw [node?, ← Bool.not_eq_true, Option.isNone_iff_eq_none, List.getElem?_eq_none_iff, Nat.not_le]

/-- No number is dangling exactly if children and parents are nodes. -/
theorem isDangling_eq_false_iff :
    command.isDangling = false ↔
      (∀ id ∈ command.children, id < command.nodes.length) ∧
        (∀ node ∈ command.nodes, ∀ id ∈ node.children, id < command.nodes.length) ∧
          ∀ node ∈ command.nodes, ∀ id ∈ node.parent, id < command.nodes.length := by
  have hreferences : command.isDangling = false ↔ ∀ id ∈ command.references, id < command.nodes.length := by
    rw [isDangling, List.any_eq_false]
    refine forall₂_congr fun id _ => ?_
    rw [Bool.not_eq_true, isNone_node?_eq_false_iff]
  rw [hreferences, references, List.forall_mem_append, List.forall_mem_append, List.forall_mem_flatMap,
    and_assoc]
  refine and_congr_right fun _ => and_congr_right fun _ => ?_
  constructor
  · intro h node hnode id hid
    exact h id (List.mem_filterMap.mpr ⟨node, hnode, hid⟩)
  · intro h id hmem
    rcases List.mem_filterMap.mp hmem with ⟨node, hnode, hid⟩
    exact h node hnode id hid

/-- A node has no faults exactly if its parameters fit together, its flags differ from those handed down to
it, and no word names two of its children. -/
theorem nodeFaults_eq_nil_iff_isValidScope {node : Node} :
    command.nodeFaults node = [] ↔
      IsValidScope node.parameters ∧
        (ownFlagNames node.parameters ++ node.inheritedFlagNames).Nodup ∧
          ((command.childNodesOf node).flatMap Node.words).Nodup := by
  rw [nodeFaults_eq_nil_iff, ← parameterFaults_eq_nil_iff_isValidScope node.label,
    parameterFaults_eq_nil_iff]
  -- The second check counts the flags of the node again, so the first one follows from it.
  constructor
  · rintro ⟨hpositions, hflags, hwords⟩
    exact ⟨⟨hpositions, (List.nodup_append.mp hflags).1⟩, hflags, hwords⟩
  · rintro ⟨⟨hpositions, -⟩, hflags, hwords⟩
    exact ⟨hpositions, hflags, hwords⟩

/-- A command is valid exactly if it has no faults. -/
theorem isValid_iff : command.IsValid ↔ command.faults = [] := by
  rw [faults_eq_nil_iff, Text.isBlankText_eq_false_iff, isDangling_eq_false_iff,
    parameterFaults_eq_nil_iff_isValidScope]
  simp only [nodeFaults_eq_nil_iff_isValidScope, ownFlagNames_eq, Node.inheritedFlagNames_eq]
  constructor
  · intro valid
    refine ⟨valid.name, ⟨valid.children_lt, valid.node_children_lt, valid.node_parent_lt⟩, valid.scope,
      valid.words, ?_⟩
    intro node hnode
    exact ⟨valid.node_scope node hnode, valid.node_flags node hnode, valid.node_words node hnode⟩
  · rintro ⟨hname, ⟨hchildren, hnodeChildren, hparents⟩, hscope, hwords, hnodes⟩
    exact ⟨hname, hchildren, hnodeChildren, hparents, hscope, fun node hnode => (hnodes node hnode).1,
      fun node hnode => (hnodes node hnode).2.1, hwords, fun node hnode => (hnodes node hnode).2.2⟩

end Command

/-! ## Models -/

/-- The check of a model, built or not, finds nothing exactly if the model is valid. -/
theorem Model.faults_eq_nil_iff_isValid (model : Model) : model.faults = [] ↔ model.IsValid := by
  rw [faults_eq_nil_iff]
  simp only [← Command.isValid_iff]
  constructor
  · rintro ⟨hnames, hcommands⟩
    exact ⟨hnames, hcommands⟩
  · intro valid
    exact ⟨valid.names, valid.commands⟩

end CommandDoc
