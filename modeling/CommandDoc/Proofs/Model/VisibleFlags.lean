import CommandDoc.Proofs.Build.Assembly
import CommandDoc.Proofs.Model.Validation
import CommandDoc.Proofs.Tree.Row

/-!
# Flags that are visible at one place

At a node the flags of its own parameters are visible, those that it defers to the commands above included,
and the flags handed down to it.  A build checks all of them but the deferred ones.  So a flag can be visible
twice, and then a deferred parameter has it.

Main definitions:

- `Node.visibleFlagNames` and `deferredFlagNames`.

Main results:

- Theorem `nodup_visibleFlagNames_iff_of_build`: when the flags visible at one place of a built model are
  different.
- Theorem `nodup_visibleFlagNames_iff_of_build_sharedFlag`: they are not always.
-/

namespace CommandDoc

/-! ## Deferred flags -/

/-- The flag names of parameters that are declared above. -/
def deferredFlagNames (parameters : List Parameter) : List String :=
  flagNamesOf (parameters.filter (·.fromParent))

/-- All flag names visible at a node: those of its own parameters and those handed down to it. -/
def Node.visibleFlagNames (node : Node) : List String :=
  flagNamesOf node.parameters ++ node.inheritedFlagNames

theorem flagNamesOf_append (ps qs : List Parameter) :
    flagNamesOf (ps ++ qs) = flagNamesOf ps ++ flagNamesOf qs := by
  rw [flagNamesOf, flagNamesOf, flagNamesOf, List.filter_append, List.flatMap_append]

theorem flagNamesOf_perm {ps qs : List Parameter} (h : ps.Perm qs) :
    (flagNamesOf ps).Perm (flagNamesOf qs) :=
  (h.filter _).flatMap_right _

/-- A flag is brought or deferred. -/
theorem flagNamesOf_perm_deferred_own (parameters : List Parameter) :
    (flagNamesOf parameters).Perm (deferredFlagNames parameters ++ ownFlagNames parameters) := by
  rw [deferredFlagNames, ownFlagNames, ← flagNamesOf_append]
  exact flagNamesOf_perm (List.filter_append_perm (fun p => p.fromParent) parameters).symm

/-- Parameters of which none is declared above bring all their flags. -/
theorem ownFlagNames_eq_flagNamesOf {parameters : List Parameter}
    (h : ∀ p ∈ parameters, p.fromParent = false) : ownFlagNames parameters = flagNamesOf parameters := by
  rw [ownFlagNames, List.filter_eq_self.mpr]
  intro p hp
  rw [h p hp]
  rfl

/-- The flags visible at a node are different exactly if those it brings or takes over are, and each
deferred one is different from them and from the other deferred ones. -/
theorem Node.nodup_visibleFlagNames_iff {node : Node} :
    node.visibleFlagNames.Nodup ↔
      (deferredFlagNames node.parameters).Nodup ∧
        (ownFlagNames node.parameters ++ node.inheritedFlagNames).Nodup ∧
          ∀ flag ∈ deferredFlagNames node.parameters,
            flag ∉ ownFlagNames node.parameters ++ node.inheritedFlagNames := by
  have hperm : node.visibleFlagNames.Perm (deferredFlagNames node.parameters
      ++ (ownFlagNames node.parameters ++ node.inheritedFlagNames)) := by
    rw [visibleFlagNames, ← List.append_assoc]
    exact (flagNamesOf_perm_deferred_own node.parameters).append_right _
  rw [hperm.nodup_iff, List.nodup_append']
  rfl

/-! ## Built models -/

/-- A command that could be resolved declares all its parameters itself. -/
theorem Command.fromParent_eq_false_of_resolve {command resolved : Command}
    (h : command.resolve = .ok resolved) : ∀ p ∈ resolved.parameters, p.fromParent = false := by
  unfold resolve at h
  cases hfind : command.parameters.find? (·.fromParent) with
  | some p =>
    rw [hfind] at h
    cases h
  | none =>
    rw [hfind] at h
    obtain ⟨nodes, -, rfl⟩ := map_eq_ok_iff.mp h
    intro p hp
    simpa using List.find?_eq_none.mp hfind p hp

theorem Branch.fromParent_eq_false_of_flatten {branch : Branch} {name : String} {reserved : List String}
    {command : Command} (h : branch.flatten name reserved = .ok command) :
    ∀ p ∈ command.parameters, p.fromParent = false := by
  unfold flatten at h
  obtain ⟨resolved, hresolved, rfl⟩ := map_eq_ok_iff.mp h
  intro p hp
  exact Command.fromParent_eq_false_of_resolve hresolved p hp

/-- In a built model the flags of a command are different, and so are the flags that a node brings or that
are handed down to it.  All flags visible at the node are different exactly if no deferred parameter shares
one with another parameter. -/
theorem nodup_visibleFlagNames_iff_of_build {units : List SourceUnit} {settings : Settings}
    {outcome : Outcome} (h : build units settings = .ok outcome) :
    ∀ command ∈ outcome.model.commands,
      (flagNamesOf command.parameters).Nodup ∧
        ∀ node ∈ command.nodes,
          (ownFlagNames node.parameters ++ node.inheritedFlagNames).Nodup ∧
            (node.visibleFlagNames.Nodup ↔
              (deferredFlagNames node.parameters).Nodup ∧
                ∀ flag ∈ deferredFlagNames node.parameters,
                  flag ∉ ownFlagNames node.parameters ++ node.inheritedFlagNames) := by
  obtain ⟨hflatten, hfaults⟩ := flatten_of_build h
  intro command hcommand
  have hvalid := (Model.faults_eq_nil_iff.mp hfaults).2 command hcommand
  obtain ⟨-, -, hparameters, -, hnodes⟩ := Command.faults_eq_nil_iff.mp hvalid
  constructor
  · -- Nothing stands above a command, so none of its parameters escapes the check.
    obtain ⟨entry, -, hentry⟩ := CommandTree.exists_branch_of_flatten hflatten hcommand
    rw [← ownFlagNames_eq_flagNamesOf (Branch.fromParent_eq_false_of_flatten hentry)]
    exact (parameterFaults_eq_nil_iff.mp hparameters).2
  · intro node hnode
    obtain ⟨-, hnodup, -⟩ := Command.nodeFaults_eq_nil_iff.mp (hnodes node hnode)
    refine ⟨hnodup, ?_⟩
    rw [Node.nodup_visibleFlagNames_iff]
    exact and_congr_right fun _ => and_iff_right hnodup

/-- A unit with a command whose flag has a short name, and a subcommand that defers this flag and gives
another one the same short name. -/
def sharedFlagUnit : SourceUnit where
  package := "example.com/app"
  file := "main.go"
  functions :=
    [{ name := "App"
       doc := "App is a subcommand \x60app\x60 that runs\nFlags:\n\n\ttoken: --token -t the token"
       parameters := [{ name := "token", typeText := "string" }] },
      { name := "Push"
        doc := "Push is a subcommand \x60app push\x60 that pushes\nFlags:\n\n\ttoken: (from: parent)\n"
          ++ "\ttimeout: -t the timeout"
        parameters := [{ name := "token", typeText := "string" }, { name := "timeout", typeText := "int" }] }]

/-- The unit is built, although the short name reaches two parameters of the subcommand. -/
theorem nodup_visibleFlagNames_iff_of_build_sharedFlag :
    ∃ outcome, build [sharedFlagUnit] {} = .ok outcome ∧
      ∃ command ∈ outcome.model.commands, ∃ node ∈ command.nodes, ¬ node.visibleFlagNames.Nodup := by
  have hok : (build [sharedFlagUnit] {}).map (fun outcome =>
      decide (∃ command ∈ outcome.model.commands, ∃ node ∈ command.nodes,
        "t" ∈ deferredFlagNames node.parameters ∧ "t" ∈ ownFlagNames node.parameters)) = .ok true := by
    decide +kernel
  obtain ⟨outcome, houtcome, hshared⟩ := map_eq_ok_iff.mp hok
  obtain ⟨command, hcommand, node, hnode, hdeferred, hown⟩ := of_decide_eq_true hshared
  obtain ⟨-, hnodes⟩ := nodup_visibleFlagNames_iff_of_build houtcome command hcommand
  refine ⟨outcome, houtcome, command, hcommand, node, hnode, ?_⟩
  intro hnodup
  obtain ⟨-, hapart⟩ := (hnodes node hnode).2.mp hnodup
  exact hapart "t" hdeferred (List.mem_append_left _ hown)

end CommandDoc
