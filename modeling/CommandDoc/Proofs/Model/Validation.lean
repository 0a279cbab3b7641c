import Mathlib.Data.List.Nodup
import CommandDoc.Model.Validation
import CommandDoc.Proofs.Ordered

/-!
# What it means that no fault is found

Each check of a model finds nothing exactly if what it looks for is absent.

Main results:

- Theorems `mem_repeated_iff` and `repeated_eq_nil_iff`: what is repeated occurs twice, and nothing is exactly if
  all elements are different.
- Theorem `positionFaults_eq_map`: what the check of positions finds, if there is nothing else to find.
- Theorem `Node.nodup_own_inherited_iff`: when the flags that a node brings and takes over are different.
- Theorems `Command.faults_eq_nil_iff` and `commandFaults_eq_nil_iff`: commands without faults.
-/

namespace CommandDoc

/-! ## Repetition -/

section Repetition

variable {α : Type} [BEq α] [LawfulBEq α]

theorem mem_repeatedAfter_iff {seen xs : List α} {x : α} :
    x ∈ repeatedAfter seen xs ↔ x ∈ seen ∧ x ∈ xs ∨ 2 ≤ xs.count x := by
  induction xs generalizing seen with
  | nil => simp [repeatedAfter]
  | cons y ys ih =>
    rw [repeatedAfter, List.count_cons]
    by_cases hseen : y ∈ seen
    · rw [if_pos (by simpa using hseen), List.mem_cons, ih]
      by_cases hx : x = y
      · simp [hx, hseen]
      · simp [hx, Ne.symm hx]
    · rw [if_neg (by simpa using hseen), ih]
      by_cases hx : x = y
      · -- The element is new here, and is reported if it comes again.
        have hcount : x ∈ ys ↔ 1 ≤ ys.count x := List.one_le_count_iff.symm
        subst hx
        simp only [List.mem_cons, true_or, true_and, hseen, false_and, false_or, hcount, beq_self_eq_true,
          if_true]
        omega
      · simp [hx, Ne.symm hx]

/-- What occurs again in a list occurs twice. -/
theorem mem_repeated_iff {xs : List α} {x : α} : x ∈ repeated xs ↔ 2 ≤ xs.count x := by
  rw [repeated, mem_repeatedAfter_iff]
  simp

theorem repeated_eq_nil_iff {xs : List α} : repeated xs = [] ↔ xs.Nodup := by
  simp only [List.eq_nil_iff_forall_not_mem, mem_repeated_iff, Nat.not_le, Nat.lt_succ_iff,
    List.nodup_iff_count_le_one]

end Repetition

/-! ## Positions -/

/-- If only arguments are repeated and no position is zero, the faults of positions are the positions that are
repeated. -/
theorem positionFaults_eq_map {path : String} {taken : List UInt32} {parameters : List Parameter}
    (h : ∀ p ∈ parameters, (p.vararg = true → p.positional = true) ∧ p.takenPosition? ≠ some 0) :
    positionFaults path taken parameters
      = (repeatedAfter taken (parameters.filterMap Parameter.takenPosition?)).map
          (Fault.duplicatePosition path) := by
  induction parameters generalizing taken with
  | nil => rfl
  | cons p parameters ih =>
    rcases h p List.mem_cons_self with ⟨hvararg, hzero⟩
    have hrest : ∀ q ∈ parameters, (q.vararg = true → q.positional = true) ∧ q.takenPosition? ≠ some 0 :=
      fun q hq => h q (List.mem_cons_of_mem _ hq)
    have hnone :
        (if p.vararg && !p.positional then [Fault.varargNotPositional path p.name] else []) = [] := by
      by_cases hrepeated : p.vararg = true
      · simp [hvararg hrepeated]
      · simp [hrepeated]
    rw [positionFaults, hnone]
    cases htaken : p.takenPosition? with
    | none => simp [htaken, ih hrest]
    | some position =>
      have hne : position ≠ 0 := fun heq => hzero (by rw [htaken, heq])
      simp only [beq_iff_eq, hne, if_false, List.nil_append, List.filterMap_cons_some htaken, repeatedAfter]
      by_cases hseen : position ∈ taken
      · simp [hseen, ih hrest]
      · simp [hseen, ih hrest]

/-! ## Flags -/

theorem Ordered.sortStrings_eq_nil_iff {xs : List String} : sortStrings xs = [] ↔ xs = [] := by
  simp only [List.eq_nil_iff_forall_not_mem, sortStrings, mem_sortDistinct stringBefore_strictOrder]

/-- Handed down flags do not clash exactly if none of them is visible twice. -/
theorem Node.flagClashes_eq_nil_iff {node : Node} :
    node.flagClashes = [] ↔ ∀ flag ∈ node.inheritedFlagNames,
      (ownFlagNames node.parameters ++ node.inheritedFlagNames).count flag ≤ 1 := by
  rw [flagClashes, Ordered.sortStrings_eq_nil_iff, List.filter_eq_nil_iff]
  simp only [decide_eq_true_eq, Nat.not_lt]

/-- The flags that a node brings and those handed down to it are different exactly if both checks on them
find nothing. -/
theorem Node.nodup_own_inherited_iff {node : Node} :
    (ownFlagNames node.parameters ++ node.inheritedFlagNames).Nodup ↔
      repeated (ownFlagNames node.parameters) = [] ∧ node.flagClashes = [] := by
  rw [repeated_eq_nil_iff, flagClashes_eq_nil_iff]
  constructor
  · intro h
    exact ⟨(List.nodup_append.mp h).1, fun flag _ => List.nodup_iff_count_le_one.mp h flag⟩
  · rintro ⟨hown, hcount⟩
    rw [List.nodup_iff_count_le_one]
    intro flag
    -- The second check counts only handed down flags; any other flag is counted by the first one.
    by_cases hflag : flag ∈ node.inheritedFlagNames
    · exact hcount flag hflag
    · rw [List.count_append, List.count_eq_zero_of_not_mem hflag]
      exact List.nodup_iff_count_le_one.mp hown flag

theorem parameterFaults_eq_nil_iff {path : String} {parameters : List Parameter} :
    parameterFaults path parameters = [] ↔
      positionFaults path [] parameters = [] ∧ (ownFlagNames parameters).Nodup := by
  rw [parameterFaults, List.append_eq_nil_iff, List.map_eq_nil_iff, repeated_eq_nil_iff]

theorem siblingFaults_eq_nil_iff {path : String} {siblings : List Node} :
    siblingFaults path siblings = [] ↔ (siblings.flatMap Node.words).Nodup := by
  rw [siblingFaults, List.map_eq_nil_iff, repeated_eq_nil_iff]

/-! ## Commands -/

/-- A node has no faults exactly if its positions have none, its flags are different, and so are the words
for the nodes below it. -/
theorem Command.nodeFaults_eq_nil_iff {command : Command} {node : Node} :
    command.nodeFaults node = [] ↔
      positionFaults node.label [] node.parameters = [] ∧
        (ownFlagNames node.parameters ++ node.inheritedFlagNames).Nodup ∧
          ((command.childNodesOf node).flatMap Node.words).Nodup := by
  rw [nodeFaults, List.append_eq_nil_iff, List.append_eq_nil_iff, List.map_eq_nil_iff,
    siblingFaults_eq_nil_iff, parameterFaults_eq_nil_iff, Node.nodup_own_inherited_iff,
    repeated_eq_nil_iff]
  simp only [and_assoc]

/-- A command has no faults exactly if its name is not blank, its numbers point to nodes, and its
parameters, its siblings and its nodes have none. -/
theorem Command.faults_eq_nil_iff {command : Command} :
    command.faults = [] ↔
      Text.isBlankText command.name.toList = false ∧ command.isDangling = false ∧
        parameterFaults command.name command.parameters = [] ∧
          (command.childNodes.flatMap Node.words).Nodup ∧
            ∀ node ∈ command.nodes, command.nodeFaults node = [] := by
  unfold faults
  by_cases hblank : Text.isBlankText command.name.toList = true
  · simp [hblank]
  · by_cases hdangling : command.isDangling = true
    · simp [hblank, hdangling]
    · rw [if_neg hblank, if_neg hdangling, List.append_eq_nil_iff, List.append_eq_nil_iff,
        siblingFaults_eq_nil_iff, List.flatMap_eq_nil_iff]
      simp only [Bool.not_eq_true] at hblank hdangling
      simp only [hblank, hdangling, true_and, and_assoc]

/-- The faults of a command whose name is not blank and whose numbers point to nodes. -/
theorem Command.faults_eq {command : Command} (hname : Text.isBlankText command.name.toList = false)
    (hdangling : command.isDangling = false) :
    command.faults = parameterFaults command.name command.parameters
      ++ siblingFaults command.name command.childNodes ++ command.nodes.flatMap command.nodeFaults := by
  rw [faults, hname, hdangling]
  rfl

/-- The faults of commands with different names are those of each. -/
theorem commandFaults_eq_flatMap {seen : List String} {commands : List Command}
    (hnames : (commands.map (·.name)).Nodup) (hnew : ∀ command ∈ commands, command.name ∉ seen) :
    commandFaults seen commands = commands.flatMap Command.faults := by
  induction commands generalizing seen with
  | nil => rfl
  | cons command commands ih =>
    rw [List.map_cons, List.nodup_cons] at hnames
    have hseen : command.name ∉ seen := hnew command List.mem_cons_self
    rw [commandFaults, if_neg (by simpa using hseen), List.flatMap_cons, ih hnames.2]
    intro other hother
    rw [List.mem_cons, not_or]
    refine ⟨fun heq => hnames.1 ?_, hnew other (List.mem_cons_of_mem _ hother)⟩
    exact List.mem_map.mpr ⟨other, hother, heq⟩

/-- Commands have no faults exactly if their names are different, not seen before, and no command has
one. -/
theorem commandFaults_eq_nil_iff {seen : List String} {commands : List Command} :
    commandFaults seen commands = [] ↔
      (commands.map (·.name)).Nodup ∧ (∀ command ∈ commands, command.name ∉ seen) ∧
        ∀ command ∈ commands, command.faults = [] := by
  induction commands generalizing seen with
  | nil => simp [commandFaults]
  | cons command commands ih =>
    rw [commandFaults]
    by_cases hseen : command.name ∈ seen
    · simp [hseen]
    · rw [if_neg (by simpa using hseen), List.append_eq_nil_iff, ih, List.map_cons, List.nodup_cons]
      rw [List.forall_mem_cons, List.forall_mem_cons]
      simp only [List.mem_cons, not_or, List.mem_map, not_exists, not_and]
      constructor
      · rintro ⟨hfaults, hnodup, hnew, hrest⟩
        exact ⟨⟨fun other hother => (hnew other hother).1, hnodup⟩,
          ⟨hseen, fun other hother => (hnew other hother).2⟩, hfaults, hrest⟩
      · rintro ⟨⟨hdistinct, hnodup⟩, ⟨-, hnew⟩, hfaults, hrest⟩
        exact ⟨hfaults, hnodup, fun other hother => ⟨hdistinct other hother, hnew other hother⟩, hrest⟩

/-- A model has no faults exactly if the names of its commands are different and no command has one. -/
theorem Model.faults_eq_nil_iff {model : Model} :
    model.faults = [] ↔ model.commandNames.Nodup ∧ ∀ command ∈ model.commands, command.faults = [] := by
  rw [faults, commandFaults_eq_nil_iff, commandNames]
  simp

end CommandDoc
