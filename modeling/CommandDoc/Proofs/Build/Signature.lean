import CommandDoc.Proofs.Build.Assembly
import CommandDoc.Proofs.Declaration
import CommandDoc.Proofs.Model.VisibleFlags
import CommandDoc.Proofs.Tree.Acceptance
import CommandDoc.Proofs.Tree.Inheritance

/-!
# Signatures in built models

A parameter that the signature repeats is finished as a repeated argument.  It stays one in a built model
unless it defers: then it takes over what the parameter that answers for it says, and is repeated only if that
one is.

Main definitions:

- `Command.Answers`: the parameter of a command that answers for a name at a path.

Main results:

- Theorem `Branch.IsCompleted.answers`: where a chain of deferring parameters ends, seen in the completed
  command.
- Theorem `forall₂_vararg_iff_of_build`: one parameter for each of the signature, and which of them are
  repeated arguments.
-/

namespace CommandDoc

/-! ## Answers in a completed command -/

/-- The parameter `p` of a command, which stands at `source`, answers for a name at `path`: it is the first of
its name there and does not defer, and on the way the first of its name defers wherever there is one. -/
structure Command.Answers (command : Command) (path : List String) (name : String) (source : List String)
    (p : Parameter) : Prop where
  /-- It stands above. -/
  above : IsAbove source path
  /-- It is the first of its name there. -/
  first : findParameter? (command.parametersAt source) name = some p
  /-- It does not defer itself. -/
  own : p.fromParent = false
  /-- Nothing nearer ends the chain. -/
  nearest : ∀ between, IsAbove source between → IsAbove between path →
    ∀ q, findParameter? (command.parametersAt between) name = some q → q.fromParent = true

/-- At most one parameter answers. -/
theorem Command.Answers.unique {command : Command} {path source source' : List String} {name : String}
    {p p' : Parameter} (h : command.Answers path name source p) (h' : command.Answers path name source' p') :
    p = p' := by
  rcases isAbove_trichotomy h.above.1 h'.above.1 with habove | rfl | hbelow
  · have hdefers := h.nearest source' habove h'.above p' h'.first
    rw [h'.own] at hdefers
    cases hdefers
  · exact Option.some.inj (h.first.symm.trans h'.first)
  · have hdefers := h'.nearest source hbelow h.above p h.first
    rw [h.own] at hdefers
    cases hdefers

namespace Branch

variable {branch : Branch} {name : String} {command : Command}

theorem Completes.fromParent_eq {path : List String} {declared final : Parameter}
    (h : branch.Completes name path declared final) : final.fromParent = declared.fromParent := by
  cases h with
  | own _ => rfl
  | deferred hdefers _ => exact hdefers.symm

/-- At every path, the parameters of a completed command are what the declared ones become. -/
theorem IsCompleted.parametersAt (h : branch.IsCompleted name command) (laid : command.LaidOut branch.paths)
    (row : IsPathRow branch.paths) (path : List String) :
    List.Forall₂ (branch.Completes name path) (branch.parametersAt path) (command.parametersAt path) := by
  by_cases hnil : path = []
  · rw [hnil, Command.parametersAt_nil]
    exact h.root
  · by_cases hpath : path ∈ branch.paths
    · obtain ⟨node, hnode, rfl⟩ := laid.exists_node hpath
      rw [laid.parametersAt_path row hnode]
      exact h.nodes node hnode
    · -- Nothing is declared there, and no node stands there.
      have hdeclared : branch.parametersAt path = [] := by
        by_contra hne
        obtain ⟨p, hp⟩ := List.exists_mem_of_ne_nil _ hne
        exact hpath (path_mem_of_mem_parametersAt hnil hp)
      have hfinal : command.parametersAt path = [] := by
        by_contra hne
        obtain ⟨p, hp⟩ := List.exists_mem_of_ne_nil _ hne
        obtain ⟨declared, hmem, -⟩ := h.exists_completes hp
        rw [hdeclared] at hmem
        cases hmem
      rw [hdeclared, hfinal]
      exact .nil

/-- What answers for a deferring parameter among the declared ones answers in the completed command, too. -/
theorem IsCompleted.answers (h : branch.IsCompleted name command) (laid : command.LaidOut branch.paths)
    (row : IsPathRow branch.paths) {path source : List String} {parameter : String} {p : Parameter}
    (hprovides : branch.Provides path parameter source p) :
    command.Answers path parameter source { p with declaredBy := some (pathLabel name source) } where
  above := hprovides.above
  first := by
    have hrel := rel_findParameter? (h.parametersAt laid row source) parameter
    rw [hprovides.first] at hrel
    generalize findParameter? (command.parametersAt source) parameter = found at hrel ⊢
    cases hrel with
    | some hcompletes =>
      cases hcompletes with
      | own _ => rfl
      | deferred hdefers _ =>
        rw [hprovides.own] at hdefers
        cases hdefers
  own := hprovides.own
  nearest := by
    intro between hbetween hpath q hq
    have hrel := rel_findParameter? (h.parametersAt laid row between) parameter
    rw [hq] at hrel
    cases hdeclared : findParameter? (branch.parametersAt between) parameter with
    | none =>
      rw [hdeclared] at hrel
      cases hrel
    | some q' =>
      rw [hdeclared] at hrel
      cases hrel with
      | some hcompletes =>
        rw [hcompletes.fromParent_eq]
        exact hprovides.nearest between hbetween hpath q' hdeclared

/-! ## Repeated parameters -/

/-- All declarations of a branch follow their signatures. -/
def FollowsSignatures (branch : Branch) : Prop :=
  ∀ path d, branch.declared? path = some d → d.FollowsSignature

theorem FollowsSignatures.forall₂_becomes (hfollows : branch.FollowsSignatures) {path : List String}
    {binding : Binding} (hbinding : (branch.declared? path).map (·.binding) = some binding) :
    List.Forall₂ TypedParam.Becomes binding.parameters (branch.parametersAt path) := by
  obtain ⟨d, hd, rfl⟩ := Option.map_eq_some_iff.mp hbinding
  rw [Branch.parametersAt, hd]
  exact hfollows path d hd

theorem FollowsSignatures.positional_of_vararg (hfollows : branch.FollowsSignatures) {path : List String}
    {p : Parameter} (hp : p ∈ branch.parametersAt path) (hvararg : p.vararg = true) :
    p.positional = true := by
  rw [Branch.parametersAt] at hp
  cases hdeclared : branch.declared? path with
  | none =>
    rw [hdeclared] at hp
    cases hp
  | some d =>
    rw [hdeclared] at hp
    obtain ⟨typed, -, hbecomes⟩ := exists_of_mem_right (hfollows path d hdeclared) hp
    exact hbecomes.positional_of_vararg hvararg

/-- A parameter that the signature repeats is a repeated argument in the completed command, unless it defers
to one that is none. -/
theorem IsCompleted.vararg_iff (h : branch.IsCompleted name command) (laid : command.LaidOut branch.paths)
    (row : IsPathRow branch.paths) (hfollows : branch.FollowsSignatures) {typed : TypedParam}
    {path : List String} {declared p : Parameter} (hbecomes : typed.Becomes declared)
    (hcompletes : branch.Completes name path declared p) (hvariadic : typed.variadic = true) :
    (p.vararg = true ∧ p.positional = true ↔
      (p.fromParent = true → ∃ source q, command.Answers path p.name source q ∧ q.vararg = true)) := by
  have hvararg := hbecomes.vararg_of_variadic hvariadic
  cases hcompletes with
  | own hown =>
    refine iff_of_true ⟨hvararg, hbecomes.positional_of_vararg hvararg⟩ fun hdefers => ?_
    rw [show declared.fromParent = true from hdefers] at hown
    cases hown
  | @deferred hdefers source q hprovides =>
    have hanswers := h.answers laid row hprovides
    constructor
    · rintro ⟨hq, -⟩ -
      exact ⟨source, _, hanswers, hq⟩
    · intro hanswered
      obtain ⟨source', q', hanswers', hq'⟩ := hanswered rfl
      rw [← hanswers.unique hanswers'] at hq'
      have hq : q ∈ branch.parametersAt source := List.mem_of_find?_eq_some hprovides.first
      have hpositional : q.positional = true := hfollows.positional_of_vararg hq hq'
      exact ⟨hq', hpositional⟩

end Branch

/-! ## Built models -/

/-- Whatever units declare follows the signatures. -/
theorem followsSignature_of_mem_yield (units : List SourceUnit) {d : Declaration}
    (hd : d ∈ (functionUnits units).flatMap (·.yield.declarations)) : d.FollowsSignature := by
  rcases exists_extract_of_mem_yield hd with ⟨source, -, extraction, hextract, hd⟩
  exact SourceUnit.followsSignature_of_mem_declarations hextract hd

theorem CommandTree.followsSignatures_branch {ds : List Declaration} (h : ∀ d ∈ ds, d.FollowsSignature)
    (name : String) : ((({} : CommandTree).insertEach ds).branch name).FollowsSignatures := by
  intro path d hd
  exact h d (Branch.mem_of_declared?_insertEach hd)

/-- In a built model there is one parameter for each of the signature, in order.  Those that the signature
repeats are repeated arguments, except where a parameter of a subcommand defers to one that is none. -/
theorem forall₂_vararg_iff_of_build {units : List SourceUnit} {settings : Settings} {outcome : Outcome}
    (h : build units settings = .ok outcome) :
    ∀ command ∈ outcome.model.commands,
      (∀ binding, command.function = some binding →
        List.Forall₂ (fun typed p => typed.variadic = true → p.vararg = true ∧ p.positional = true)
          binding.parameters command.parameters) ∧
      ∀ node ∈ command.nodes, ∀ binding, node.function = some binding →
        List.Forall₂ (fun typed p => typed.variadic = true →
            (p.vararg = true ∧ p.positional = true ↔
              (p.fromParent = true →
                ∃ source q, command.Answers node.path p.name source q ∧ q.vararg = true)))
          binding.parameters node.parameters := by
  obtain ⟨hflatten, -⟩ := flatten_of_build h
  rw [← CommandTree.insertEach_empty] at hflatten
  intro command hcommand
  obtain ⟨row, hbranch⟩ := CommandTree.flatten_branch_name hflatten hcommand
  have hfollows := CommandTree.followsSignatures_branch
    (fun _ => followsSignature_of_mem_yield units) command.name
  have hcompleted := Branch.isCompleted_of_flatten row hbranch
  have laid := Branch.laidOut_of_flatten hbranch
  constructor
  · intro binding hbinding
    rw [(Branch.displays_of_flatten row hbranch).function_eq] at hbinding
    refine forall₂_of_forall₂_forall₂ ?_ (hfollows.forall₂_becomes hbinding) hcompleted.root
    intro typed declared p hbecomes hcompletes hvariadic
    have hvararg := hbecomes.vararg_of_variadic hvariadic
    cases hcompletes with
    | own _ => exact ⟨hvararg, hbecomes.positional_of_vararg hvararg⟩
    | deferred _ hprovides => exact absurd rfl hprovides.above.ne_nil
  · intro node hnode binding hbinding
    rw [(Branch.node_displays_of_flatten row hbranch hnode).function_eq] at hbinding
    refine forall₂_of_forall₂_forall₂ ?_ (hfollows.forall₂_becomes hbinding)
      (hcompleted.nodes node hnode)
    intro typed declared p hbecomes hcompletes
    exact hcompleted.vararg_iff laid row hfollows hbecomes hcompletes

/-- A unit with a command that takes one file, and a subcommand that takes any number of them and defers to
the command. -/
def deferredFilesUnit : SourceUnit where
  package := "example.com/app"
  file := "main.go"
  functions :=
    [{ name := "App"
       doc := "App is a subcommand \x60app\x60 that runs\nFlags:\n\n\tfiles: @1 the file"
       parameters := [{ name := "files", typeText := "string" }] },
      { name := "Push"
        doc := "Push is a subcommand \x60app push\x60 that pushes\nFlags:\n\n\tfiles: (from: parent)"
        parameters := [{ name := "files", typeText := "string", variadic := true }] }]

/-- The parameter of the subcommand is not repeated, as it defers to one that is not. -/
theorem forall₂_vararg_iff_of_build_deferredFiles :
    ∃ outcome, build [deferredFilesUnit] {} = .ok outcome ∧
      ∃ command ∈ outcome.model.commands, ∃ node ∈ command.nodes,
        node.function.map (·.parameters) = some [⟨"files", .slice .string, true⟩] ∧
          ∃ p ∈ node.parameters, p.vararg = false ∧ p.fromParent = true ∧
            ∀ source q, command.Answers node.path p.name source q → q.vararg = false := by
  have hok : (build [deferredFilesUnit] {}).map (fun outcome =>
      decide (∃ command ∈ outcome.model.commands, ∃ node ∈ command.nodes,
        node.function.map (·.parameters) = some [⟨"files", .slice .string, true⟩] ∧
          ∃ p ∈ node.parameters, node.parameters = [p] ∧ p.vararg = false)) = .ok true := by
    decide +kernel
  obtain ⟨outcome, houtcome, hshape⟩ := map_eq_ok_iff.mp hok
  obtain ⟨command, hcommand, node, hnode, hsignature, p, hp, hsingle, hvararg⟩ := of_decide_eq_true hshape
  obtain ⟨binding, hbinding, hparameters⟩ := Option.map_eq_some_iff.mp hsignature
  refine ⟨outcome, houtcome, command, hcommand, node, hnode, hsignature, p, hp, hvararg, ?_⟩
  have hall := (forall₂_vararg_iff_of_build houtcome command hcommand).2 node hnode binding hbinding
  rw [hparameters, hsingle] at hall
  cases hall with
  | cons hiff _ =>
    have hlost : ¬ (p.vararg = true ∧ p.positional = true) := by simp [hvararg]
    have hunanswered := mt (hiff rfl).mpr hlost
    push Not at hunanswered
    obtain ⟨hdefers, hnone⟩ := hunanswered
    exact ⟨hdefers, fun source q hq => by simpa using hnone source q hq⟩

end CommandDoc
