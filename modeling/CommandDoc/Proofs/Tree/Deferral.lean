import CommandDoc.Proofs.Except
import CommandDoc.Proofs.Tree.Scope

/-!
# Parameters declared above

A parameter can defer to the one of its name that is declared above.  Chains of such parameters are followed
up to a parameter that does not defer.  The nodes are completed in their order, and as the scopes above a
node are complete before it, each chain is followed in one step.

Main definitions:

- `Branch.Provides`: where a chain of deferring parameters ends, and at which parameter.
- `Branch.Completes`: what a declared parameter becomes.
- `Branch.HasOrphan`: some parameter defers to nothing.

Main results:

- Theorem `Branch.Progress.step`: completing one node keeps a row complete up to it.
- Theorem `Branch.Progress.run`: so completing all nodes leaves every node complete.
- Theorem `flatten_completes`: a command fails to be flattened exactly if some parameter defers to nothing,
  and else each of its parameters is completed.
-/

namespace CommandDoc

/-! ## Deferring parameters and what answers for them -/

namespace Branch

/-- The parameter `p` declared at `source` answers for a name at `path`: it is the first of its name there
and does not defer, and on the way the first of its name defers wherever there is one. -/
structure Provides (branch : Branch) (path : List String) (name : String) (source : List String)
    (p : Parameter) : Prop where
  /-- It is declared above. -/
  above : IsAbove source path
  /-- It is the first of its name there. -/
  first : findParameter? (branch.parametersAt source) name = some p
  /-- It does not defer itself. -/
  own : p.fromParent = false
  /-- Nothing nearer ends the chain. -/
  nearest : ∀ between, IsAbove source between → IsAbove between path →
    ∀ q, findParameter? (branch.parametersAt between) name = some q → q.fromParent = true

/-- What a parameter that is declared at a path becomes. -/
inductive Completes (branch : Branch) (command : String) (path : List String) (declared : Parameter) :
    Parameter → Prop
  /-- A parameter that does not defer is kept, with the label of its path. -/
  | own (h : declared.fromParent = false) :
      Completes branch command path declared
        { declared with declaredBy := some (pathLabel command path) }
  /-- A parameter that defers keeps its name and type and takes over all else from the one that answers for
  its name, with the label of that one's path. -/
  | deferred (h : declared.fromParent = true) {source : List String} {p : Parameter}
      (hprovides : branch.Provides path declared.name source p) :
      Completes branch command path declared
        { p with
          name := declared.name
          type := declared.type
          fromParent := true
          inherited := false
          declaredBy := some (pathLabel command source) }

/-- Some parameter defers to nothing: one of the command itself, or one of a node whose name is declared
nowhere above. -/
def HasOrphan (branch : Branch) : Prop :=
  (∃ p ∈ branch.parametersAt [], p.fromParent = true) ∨
    ∃ path ≠ [], ∃ p ∈ branch.parametersAt path, p.fromParent = true ∧
      ∀ above, IsAbove above path → p.name ∉ (branch.parametersAt above).map (·.name)

theorem Completes.name_eq {branch : Branch} {command : String} {path : List String}
    {declared final : Parameter} (h : branch.Completes command path declared final) :
    final.name = declared.name := by
  cases h with
  | own _ => rfl
  | deferred _ _ => rfl

/-- The first of a name among completed parameters is what the first of that name declared becomes. -/
theorem rel_findParameter? {branch : Branch} {command : String} {path : List String}
    {declared final : List Parameter} (h : List.Forall₂ (branch.Completes command path) declared final)
    (name : String) :
    Option.Rel (branch.Completes command path) (findParameter? declared name)
      (findParameter? final name) := by
  induction h with
  | nil => exact .none
  | @cons p q declared final hpq _ ih =>
    rw [findParameter?, findParameter?, List.find?_cons, List.find?_cons, hpq.name_eq]
    cases p.name == name with
    | true => exact .some hpq
    | false => exact ih

theorem findParameter?_eq_none_iff {parameters : List Parameter} {name : String} :
    findParameter? parameters name = none ↔ name ∉ parameters.map (·.name) := by
  simp [findParameter?, List.find?_eq_none]

theorem name_of_findParameter? {parameters : List Parameter} {name : String} {p : Parameter}
    (h : findParameter? parameters name = some p) : p.name = name := by
  simpa using List.find?_some h

/-- One link of a chain: a parameter that defers to a completed one is completed by taking that one over. -/
theorem Completes.link {branch : Branch} {command : String} {path nearest : List String}
    {p q found : Parameter} (hdefers : p.fromParent = true) (habove : IsAbove nearest path)
    (hfirst : findParameter? (branch.parametersAt nearest) p.name = some q)
    (hnothing : ∀ between, IsAbove nearest between → IsAbove between path →
      findParameter? (branch.parametersAt between) p.name = none)
    (hfound : branch.Completes command nearest q found) :
    branch.Completes command path p
      ({ p with declaredBy := some (pathLabel command path) }.deferTo found) := by
  cases hfound with
  | own hown =>
    -- The chain ends here.
    refine .deferred (p := q) hdefers ⟨habove, hfirst, hown, ?_⟩
    intro between hbetween hpath q' hq'
    rw [hnothing between hbetween hpath] at hq'
    cases hq'
  | @deferred hagain source s hprovides =>
    -- The chain goes on above, and its end is the same.
    rw [name_of_findParameter? hfirst] at hprovides
    refine .deferred (p := s) hdefers
      ⟨hprovides.above.trans habove, hprovides.first, hprovides.own, ?_⟩
    intro between hbetween hpath q' hq'
    rcases isAbove_trichotomy hpath.1 habove.1 with habove' | rfl | hbelow
    · exact hprovides.nearest between hbetween habove' q' hq'
    · rw [hfirst] at hq'
      cases hq'
      exact hagain
    · rw [hnothing between hbelow hpath] at hq'
      cases hq'

section

variable {branch : Branch} {command label : String} {path : List String}
  {above : List String → List Parameter}

/-- When the scopes above a path are complete, the name of a parameter is found in one of them exactly if it
is declared there. -/
theorem findParameter?_eq_none_iff_of_completes {source : List String} {final : List Parameter}
    (h : List.Forall₂ (branch.Completes command source) (branch.parametersAt source) final)
    (name : String) :
    findParameter? final name = none ↔ name ∉ (branch.parametersAt source).map (·.name) := by
  rw [← findParameter?_eq_none_iff]
  have hrel := rel_findParameter? h name
  generalize findParameter? (branch.parametersAt source) name = declared at hrel ⊢
  generalize findParameter? final name = completed at hrel ⊢
  cases hrel with
  | none => exact Iff.rfl
  | some _ => simp

/-- With complete scopes above, a parameter is completed in one step. -/
theorem completes_of_resolveParameter (hne : path ≠ [])
    (hcomplete : ∀ source, IsAbove source path →
      List.Forall₂ (branch.Completes command source) (branch.parametersAt source) (above source))
    {p final : Parameter}
    (h : resolveParameter label ((pathsAbove path).map above)
      { p with declaredBy := some (pathLabel command path) } = .ok final) :
    branch.Completes command path p final := by
  unfold resolveParameter at h
  cases hdefers : p.fromParent with
  | false =>
    simp only [hdefers] at h
    cases h
    exact .own hdefers
  | true =>
    simp only [hdefers, if_true, List.findSome?_map] at h
    split at h
    · next found hfound =>
      cases h
      obtain ⟨near, nearest, far, hsplit, hfirst, hnone⟩ := List.findSome?_eq_some_iff.mp hfound
      have hnearest : IsAbove nearest path := by
        rw [← mem_pathsAbove hne, hsplit]
        exact List.mem_append_right _ List.mem_cons_self
      have hnothing : ∀ between, IsAbove nearest between → IsAbove between path →
          findParameter? (branch.parametersAt between) p.name = none := by
        intro between hbetween hpath
        rw [findParameter?_eq_none_iff,
          ← findParameter?_eq_none_iff_of_completes (hcomplete between hpath)]
        exact hnone between ((mem_before_iff hne hsplit).mpr ⟨hbetween, hpath⟩)
      have hrel := rel_findParameter? (hcomplete nearest hnearest) p.name
      rw [show findParameter? (above nearest) p.name = some found from hfirst] at hrel
      cases hdeclared : findParameter? (branch.parametersAt nearest) p.name with
      | none => rw [hdeclared] at hrel; cases hrel
      | some q =>
        rw [hdeclared] at hrel
        cases hrel with
        | some hq => exact .link hdefers hnearest hdeclared hnothing hq
    · cases h

/-- With complete scopes above, the step fails exactly for a parameter that defers to nothing. -/
theorem orphan_of_resolveParameter (hne : path ≠ [])
    (hcomplete : ∀ source, IsAbove source path →
      List.Forall₂ (branch.Completes command source) (branch.parametersAt source) (above source))
    {p : Parameter} {error : BuildError}
    (h : resolveParameter label ((pathsAbove path).map above)
      { p with declaredBy := some (pathLabel command path) } = .error error) :
    error = .unresolvedParentParameter label p.name ∧ p.fromParent = true ∧
      ∀ source, IsAbove source path → p.name ∉ (branch.parametersAt source).map (·.name) := by
  unfold resolveParameter at h
  cases hdefers : p.fromParent with
  | false =>
    simp only [hdefers] at h
    cases h
  | true =>
    simp only [hdefers, if_true, List.findSome?_map] at h
    split at h
    · cases h
    · next hnone =>
      cases h
      refine ⟨rfl, rfl, ?_⟩
      intro source hsource
      rw [← findParameter?_eq_none_iff_of_completes (hcomplete source hsource)]
      exact List.findSome?_eq_none_iff.mp hnone source ((mem_pathsAbove hne).mpr hsource)

end

/-! ## Completing the nodes in order -/

/-- A row of nodes that is complete up to some node: the nodes `done` are, and `rest` is as declared. -/
structure Progress (branch : Branch) (name : String) (reserved : List String) (done rest : List Node) :
    Prop where
  /-- Nothing but parameters has changed. -/
  outline_eq : (done ++ rest).map Node.outline = (branch.row name reserved).nodes.map Node.outline
  /-- The parameters of the nodes that are done are complete. -/
  completed : ∀ node ∈ done,
    List.Forall₂ (branch.Completes name node.path) (branch.parametersAt node.path) node.parameters
  /-- The parameters of the others are those declared. -/
  declared : ∀ node ∈ rest,
    node.parameters = declaredBy (pathLabel name node.path) (branch.parametersAt node.path)

/-- The parameters of a command that defers nowhere itself are complete from the start. -/
theorem completes_root {branch : Branch} (name : String)
    (hroot : ∀ p ∈ branch.parametersAt [], p.fromParent = false) :
    List.Forall₂ (branch.Completes name []) (branch.parametersAt [])
      (declaredBy (pathLabel name []) (branch.parametersAt [])) := by
  rw [declaredBy, List.forall₂_map_right_iff, List.forall₂_same]
  intro p hp
  exact .own (hroot p hp)

namespace Progress

variable {branch : Branch} {name : String} {reserved : List String} {done rest : List Node}

/-- Before anything is done. -/
theorem start (row : IsPathRow branch.paths) (name : String) (reserved : List String) :
    branch.Progress name reserved [] (branch.row name reserved).nodes where
  outline_eq := by rw [List.nil_append]
  completed := by
    intro node hnode
    cases hnode
  declared := by
    intro node hnode
    rw [eq_pathNode_of_mem_row row hnode]
    rfl

/-- The row during the work. -/
theorem laidOut (h : branch.Progress name reserved done rest) :
    ({ branch.row name reserved with nodes := done ++ rest }).LaidOut branch.paths :=
  (branch.laidOut_row name reserved).of_outline h.outline_eq

/-- The scopes above the first node that is not done are complete. -/
theorem scopes_complete {node : Node} (h : branch.Progress name reserved done (node :: rest))
    (row : IsPathRow branch.paths) (hroot : ∀ p ∈ branch.parametersAt [], p.fromParent = false)
    {source : List String} (hsource : IsAbove source node.path) :
    List.Forall₂ (branch.Completes name source) (branch.parametersAt source)
      (({ branch.row name reserved with nodes := done ++ node :: rest }).parametersAt source) := by
  by_cases hnil : source = []
  · subst hnil
    have hlabel : pathLabel name [] = name := String.intercalate_singleton
    have hcomplete := completes_root name hroot
    rw [hlabel] at hcomplete
    exact hcomplete
  · -- The scope is a node of the row that stands before, so it is done.
    have laid := h.laidOut
    have hnode : node ∈ done ++ node :: rest := List.mem_append_right _ List.mem_cons_self
    have hpath := row.closed _ (laid.path_mem hnode) source hnil hsource.1
    obtain ⟨other, hother, rfl⟩ := laid.exists_node hpath
    rw [laid.parametersAt_path row hother]
    apply h.completed
    exact laid.mem_done_of_path_lt row rfl hother hsource.lt

theorem path_ne_nil {node : Node} (h : branch.Progress name reserved done (node :: rest))
    (row : IsPathRow branch.paths) : node.path ≠ [] :=
  row.ne_nil _ (h.laidOut.path_mem (List.mem_append_right _ List.mem_cons_self))

/-- The parameters of the next node are completed by those of the scopes above it. -/
theorem mapM_resolveParameter {node : Node} (h : branch.Progress name reserved done (node :: rest))
    (row : IsPathRow branch.paths) :
    node.parameters.mapM (resolveParameter node.label
        ({ branch.row name reserved with nodes := done }.parametersAbove node))
      = ((branch.parametersAt node.path).map fun p =>
            { p with declaredBy := some (pathLabel name node.path) }).mapM
          (resolveParameter node.label ((pathsAbove node.path).map
            { branch.row name reserved with nodes := done ++ node :: rest }.parametersAt)) := by
  have habove := h.laidOut.parametersAbove_done row rfl
  rw [habove, h.declared node List.mem_cons_self, declaredBy]

/-- Completing the next node keeps the row complete up to it. -/
theorem step {node : Node} (h : branch.Progress name reserved done (node :: rest))
    (row : IsPathRow branch.paths) (hroot : ∀ p ∈ branch.parametersAt [], p.fromParent = false)
    {parameters : List Parameter}
    (hparameters : node.parameters.mapM (resolveParameter node.label
      ({ branch.row name reserved with nodes := done }.parametersAbove node)) = .ok parameters) :
    branch.Progress name reserved (done ++ [{ node with parameters := parameters }]) rest where
  outline_eq := by
    rw [← h.outline_eq]
    simp [Node.outline]
  completed := by
    intro other hother
    rw [List.mem_append, List.mem_singleton] at hother
    rcases hother with hother | rfl
    · exact h.completed other hother
    · rw [h.mapM_resolveParameter row] at hparameters
      refine (List.forall₂_map_left_iff.mp (mapM_eq_ok_iff.mp hparameters)).imp ?_
      intro p final hp
      exact completes_of_resolveParameter (h.path_ne_nil row)
        (fun source => h.scopes_complete row hroot) hp
  declared := fun other hother => h.declared other (List.mem_cons_of_mem _ hother)

/-- The next node cannot be completed only if one of its parameters defers to nothing. -/
theorem orphan_of_step {node : Node} (h : branch.Progress name reserved done (node :: rest))
    (row : IsPathRow branch.paths) (hroot : ∀ p ∈ branch.parametersAt [], p.fromParent = false)
    {error : BuildError}
    (hparameters : node.parameters.mapM (resolveParameter node.label
      ({ branch.row name reserved with nodes := done }.parametersAbove node)) = .error error) :
    (∃ path parameter, error = .unresolvedParentParameter path parameter) ∧ branch.HasOrphan := by
  have hne := h.path_ne_nil row
  rw [h.mapM_resolveParameter row] at hparameters
  obtain ⟨p', hp', hstep⟩ := exists_of_mapM_eq_error hparameters
  obtain ⟨p, hp, rfl⟩ := List.mem_map.mp hp'
  obtain ⟨rfl, hdefers, hnowhere⟩ :=
    orphan_of_resolveParameter hne (fun source => h.scopes_complete row hroot) hstep
  exact ⟨⟨_, _, rfl⟩, Or.inr ⟨node.path, hne, p, hp, hdefers, hnowhere⟩⟩

/-- Completing all nodes leaves each of them complete. -/
theorem run (h : branch.Progress name reserved done rest) (row : IsPathRow branch.paths)
    (hroot : ∀ p ∈ branch.parametersAt [], p.fromParent = false) {nodes : List Node}
    (hnodes : resolveNodes (branch.row name reserved) done rest = .ok nodes) :
    branch.Progress name reserved nodes [] := by
  induction rest generalizing done with
  | nil =>
    rw [resolveNodes] at hnodes
    cases hnodes
    exact h
  | cons node rest ih =>
    rw [resolveNodes] at hnodes
    obtain ⟨parameters, hparameters, hrest⟩ := bind_eq_ok_iff.mp hnodes
    exact ih (h.step row hroot hparameters) hrest

/-- Completing all nodes fails only where a parameter defers to nothing. -/
theorem orphan_of_run (h : branch.Progress name reserved done rest) (row : IsPathRow branch.paths)
    (hroot : ∀ p ∈ branch.parametersAt [], p.fromParent = false) {error : BuildError}
    (hnodes : resolveNodes (branch.row name reserved) done rest = .error error) :
    (∃ path parameter, error = .unresolvedParentParameter path parameter) ∧ branch.HasOrphan := by
  induction rest generalizing done with
  | nil =>
    rw [resolveNodes] at hnodes
    cases hnodes
  | cons node rest ih =>
    rw [resolveNodes] at hnodes
    cases hparameters : node.parameters.mapM (resolveParameter node.label
      ({ branch.row name reserved with nodes := done }.parametersAbove node)) with
    | error e =>
      rw [hparameters] at hnodes
      cases hnodes
      exact h.orphan_of_step row hroot hparameters
    | ok parameters =>
      rw [hparameters] at hnodes
      exact ih (h.step row hroot hparameters) hnodes

end Progress

/-! ## Flattened commands -/

/-- The parameters of a flattened command, its own and those of its nodes, are what the declared ones
become. -/
structure IsCompleted (branch : Branch) (name : String) (command : Command) : Prop where
  /-- The parameters of the command itself are complete. -/
  root : List.Forall₂ (branch.Completes name []) (branch.parametersAt []) command.parameters
  /-- Those of every node are. -/
  nodes : ∀ node ∈ command.nodes,
    List.Forall₂ (branch.Completes name node.path) (branch.parametersAt node.path) node.parameters

theorem parameters_row (branch : Branch) (name : String) (reserved : List String) :
    (branch.row name reserved).parameters
      = declaredBy (pathLabel name []) (branch.parametersAt []) := by
  have hlabel : pathLabel name [] = name := String.intercalate_singleton
  rw [hlabel]
  rfl

variable {branch : Branch} {name : String} {reserved : List String}

/-- Handing parameters down changes none of them. -/
theorem IsCompleted.inherit {command : Command} (h : branch.IsCompleted name command) :
    branch.IsCompleted name command.inherit where
  root := h.root
  nodes := by
    intro node hnode
    obtain ⟨old, hold, rfl⟩ := List.mem_map.mp hnode
    exact h.nodes old hold

/-- The command itself defers nowhere exactly if completing its nodes is begun. -/
theorem resolve_row (hroot : ∀ p ∈ branch.parametersAt [], p.fromParent = false) :
    (branch.row name reserved).resolve
      = (resolveNodes (branch.row name reserved) [] (branch.row name reserved).nodes).map
          fun nodes => { branch.row name reserved with nodes := nodes } := by
  have hnone : (branch.row name reserved).parameters.find? (·.fromParent) = none := by
    rw [List.find?_eq_none, parameters_row, declaredBy]
    intro p hp
    obtain ⟨q, hq, rfl⟩ := List.mem_map.mp hp
    simp [hroot q hq]
  unfold Command.resolve
  rw [hnone]

theorem resolve_row_of_orphan (name : String) (reserved : List String) {p : Parameter}
    (hp : p ∈ branch.parametersAt []) (hdefers : p.fromParent = true) :
    ∃ path parameter, (branch.row name reserved).resolve
      = .error (.unresolvedParentParameter path parameter) := by
  unfold Command.resolve
  cases hfind : (branch.row name reserved).parameters.find? (·.fromParent) with
  | some q => exact ⟨_, _, rfl⟩
  | none =>
    rw [parameters_row, declaredBy, List.find?_eq_none] at hfind
    exact (hfind _ (List.mem_map.mpr ⟨p, hp, rfl⟩) hdefers).elim

/-- A command that can be flattened is completed. -/
theorem isCompleted_of_flatten (row : IsPathRow branch.paths) {command : Command}
    (h : branch.flatten name reserved = .ok command) : branch.IsCompleted name command := by
  unfold flatten at h
  obtain ⟨resolved, hresolved, rfl⟩ := map_eq_ok_iff.mp h
  by_cases horphan : ∃ p ∈ branch.parametersAt [], p.fromParent = true
  · obtain ⟨p, hp, hdefers⟩ := horphan
    obtain ⟨_, _, herror⟩ := resolve_row_of_orphan name reserved hp hdefers
    rw [herror] at hresolved
    cases hresolved
  · have hroot : ∀ p ∈ branch.parametersAt [], p.fromParent = false := by simpa using horphan
    rw [resolve_row hroot] at hresolved
    obtain ⟨nodes, hnodes, rfl⟩ := map_eq_ok_iff.mp hresolved
    have hdone := (Progress.start row name reserved).run row hroot hnodes
    refine IsCompleted.inherit ⟨?_, hdone.completed⟩
    have hcomplete := completes_root name hroot
    rw [← parameters_row branch name reserved] at hcomplete
    exact hcomplete

/-- A command that cannot be flattened has a parameter that defers to nothing, and the error says so. -/
theorem hasOrphan_of_flatten (row : IsPathRow branch.paths) {error : BuildError}
    (h : branch.flatten name reserved = .error error) :
    (∃ path parameter, error = .unresolvedParentParameter path parameter) ∧ branch.HasOrphan := by
  have herror : (branch.row name reserved).resolve = .error error := by
    unfold flatten at h
    cases hresolved : (branch.row name reserved).resolve with
    | error e =>
      rw [hresolved] at h
      cases h
      rfl
    | ok resolved =>
      rw [hresolved] at h
      cases h
  by_cases horphan : ∃ p ∈ branch.parametersAt [], p.fromParent = true
  · obtain ⟨p, hp, hdefers⟩ := horphan
    obtain ⟨path, parameter, heq⟩ :=
      resolve_row_of_orphan name reserved hp hdefers
    rw [herror] at heq
    cases heq
    exact ⟨⟨path, parameter, rfl⟩, Or.inl ⟨p, hp, hdefers⟩⟩
  · have hroot : ∀ p ∈ branch.parametersAt [], p.fromParent = false := by simpa using horphan
    rw [resolve_row hroot] at herror
    cases hnodes : resolveNodes (branch.row name reserved) [] (branch.row name reserved).nodes with
    | error e =>
      rw [hnodes] at herror
      cases herror
      exact (Progress.start row name reserved).orphan_of_run row hroot hnodes
    | ok nodes =>
      rw [hnodes] at herror
      cases herror

/-- A command that is completed has no parameter that defers to nothing. -/
theorem IsCompleted.not_hasOrphan {command : Command} (laid : command.LaidOut branch.paths)
    (h : branch.IsCompleted name command) : ¬ branch.HasOrphan := by
  rintro (⟨p, hp, hdefers⟩ | ⟨path, hne, p, hp, hdefers, hnowhere⟩)
  · obtain ⟨final, -, hfinal⟩ := exists_of_mem_left h.root hp
    cases hfinal with
    | own hown => rw [hdefers] at hown; cases hown
    | deferred _ hprovides => exact hprovides.above.ne_nil rfl
  · obtain ⟨node, hnode, rfl⟩ := laid.exists_node (path_mem_of_mem_parametersAt hne hp)
    obtain ⟨final, -, hfinal⟩ := exists_of_mem_left (h.nodes node hnode) hp
    cases hfinal with
    | own hown => rw [hdefers] at hown; cases hown
    | deferred _ hprovides =>
      refine hnowhere _ hprovides.above ?_
      have hfirst := hprovides.first
      exact List.mem_map.mpr ⟨_, List.mem_of_find?_eq_some hfirst, name_of_findParameter? hfirst⟩

/-- A command fails to be flattened exactly if some parameter defers to nothing. -/
theorem flatten_eq_error_iff (row : IsPathRow branch.paths) :
    (∃ path parameter, branch.flatten name reserved = .error (.unresolvedParentParameter path parameter)) ↔
      branch.HasOrphan := by
  constructor
  · rintro ⟨path, parameter, herror⟩
    exact (hasOrphan_of_flatten row herror).2
  · intro horphan
    cases hflatten : branch.flatten name reserved with
    | error e =>
      obtain ⟨⟨path, parameter, rfl⟩, -⟩ := hasOrphan_of_flatten row hflatten
      exact ⟨path, parameter, rfl⟩
    | ok command =>
      have hcompleted := isCompleted_of_flatten row hflatten
      exact absurd horphan (hcompleted.not_hasOrphan (laidOut_of_flatten hflatten))

end Branch

/-! ## Flattened trees -/

/-- The flattening of a tree fails with the error of one of its commands. -/
theorem CommandTree.exists_of_flatten_eq_error {tree : CommandTree} {reserved : List String}
    {error : BuildError} (h : tree.flatten reserved = .error error) :
    ∃ entry ∈ tree.commands, entry.2.flatten entry.1 reserved = .error error := by
  unfold flatten at h
  cases hcommands : tree.commands.mapM fun entry => Branch.flatten entry.2 entry.1 reserved with
  | error e =>
    rw [hcommands] at h
    cases h
    exact exists_of_mapM_eq_error hcommands
  | ok commands =>
    rw [hcommands] at h
    cases h

theorem CommandTree.exists_of_flatten_eq_ok {tree : CommandTree} {reserved : List String} {model : Model}
    (h : tree.flatten reserved = .ok model) {entry : String × Branch} (hentry : entry ∈ tree.commands) :
    ∃ command ∈ model.commands, entry.2.flatten entry.1 reserved = .ok command :=
  exists_of_mem_left (mapM_eq_ok_iff.mp (flatten_eq_ok h)) hentry

/-- A tree fails to be flattened exactly if some parameter of one of its commands defers to nothing. -/
theorem CommandTree.flatten_eq_error_iff (ds : List Declaration) (reserved : List String) :
    (∃ path parameter, (({} : CommandTree).insertEach ds).flatten reserved
        = .error (.unresolvedParentParameter path parameter)) ↔
      ∃ entry ∈ (({} : CommandTree).insertEach ds).commands, entry.2.HasOrphan := by
  constructor
  · rintro ⟨path, parameter, herror⟩
    obtain ⟨entry, hentry, hflatten⟩ := exists_of_flatten_eq_error herror
    exact ⟨entry, hentry, (Branch.hasOrphan_of_flatten (isPathRow_of_mem hentry) hflatten).2⟩
  · rintro ⟨entry, hentry, horphan⟩
    cases hflatten : (({} : CommandTree).insertEach ds).flatten reserved with
    | error e =>
      obtain ⟨other, hother, herror⟩ := exists_of_flatten_eq_error hflatten
      obtain ⟨⟨path, parameter, rfl⟩, -⟩ :=
        Branch.hasOrphan_of_flatten (isPathRow_of_mem hother) herror
      exact ⟨path, parameter, rfl⟩
    | ok model =>
      obtain ⟨command, -, hcommand⟩ := exists_of_flatten_eq_ok hflatten hentry
      have hcompleted := Branch.isCompleted_of_flatten (isPathRow_of_mem hentry) hcommand
      exact absurd horphan (hcompleted.not_hasOrphan (Branch.laidOut_of_flatten hcommand))

/-- After any run of insertions, flattening a command fails exactly if one of its parameters defers to
nothing, and the tree fails exactly if one of its commands does.  In a flattened command every parameter is
completed, and so it is in a flattened tree. -/
theorem flatten_completes (ds : List Declaration) (reserved : List String) :
    (∀ entry ∈ (({} : CommandTree).insertEach ds).commands,
      ((∃ path parameter,
          entry.2.flatten entry.1 reserved = .error (.unresolvedParentParameter path parameter)) ↔
        entry.2.HasOrphan) ∧
      ∀ command, entry.2.flatten entry.1 reserved = .ok command →
        entry.2.IsCompleted entry.1 command) ∧
    ((∃ path parameter, (({} : CommandTree).insertEach ds).flatten reserved
        = .error (.unresolvedParentParameter path parameter)) ↔
      ∃ entry ∈ (({} : CommandTree).insertEach ds).commands, entry.2.HasOrphan) ∧
    ∀ model, (({} : CommandTree).insertEach ds).flatten reserved = .ok model →
      ∀ command ∈ model.commands,
        ((({} : CommandTree).insertEach ds).branch command.name).IsCompleted command.name command := by
  refine ⟨?_, CommandTree.flatten_eq_error_iff ds reserved, ?_⟩
  · intro entry hentry
    have row := CommandTree.isPathRow_of_mem hentry
    exact ⟨Branch.flatten_eq_error_iff row, fun _ => Branch.isCompleted_of_flatten row⟩
  · intro model hmodel command hcommand
    obtain ⟨row, hflatten⟩ := CommandTree.flatten_branch_name hmodel hcommand
    exact Branch.isCompleted_of_flatten row hflatten

/-- Declarations of a command with a parameter, of a subcommand that defers to it, and of one below that
defers to the deferring one.  Another command defers to nothing. -/
def deferringDeclarations : List Declaration :=
  let token : Parameter := { name := "token", type := .scalar .string, flags := ["token", "t"] }
  let deferred : Parameter := { name := "token", type := .pointer .string, fromParent := true }
  [{ Declaration.plain "app" ["push", "all"] "PushAll" with parameters := [deferred] },
    { Declaration.plain "app" ["push"] "Push" with parameters := [deferred] },
    { Declaration.plain "app" [] "App" with parameters := [token] },
    { Declaration.plain "tool" ["run"] "Run" with parameters := [deferred] }]

/-- The first command is completed; the other one fails, as its parameter defers to nothing. -/
theorem flatten_completes_deferringDeclarations :
    (∃ model, (({} : CommandTree).insertEach (deferringDeclarations.take 3)).flatten [] = .ok model ∧
      ∃ command ∈ model.commands, ((({} : CommandTree).insertEach
        (deferringDeclarations.take 3)).branch command.name).IsCompleted command.name command) ∧
    ∃ entry ∈ (({} : CommandTree).insertEach deferringDeclarations).commands,
      (∃ path parameter,
        entry.2.flatten entry.1 [] = .error (.unresolvedParentParameter path parameter)) ∧
      entry.2.HasOrphan := by
  constructor
  · have hok : ((({} : CommandTree).insertEach (deferringDeclarations.take 3)).flatten []).map
        (fun model => decide (∃ command ∈ model.commands, command.name = "app")) = .ok true := by
      decide +kernel
    obtain ⟨model, hmodel, hnamed⟩ := map_eq_ok_iff.mp hok
    obtain ⟨command, hcommand, -⟩ := of_decide_eq_true hnamed
    exact ⟨model, hmodel, command, hcommand, (flatten_completes _ _).2.2 model hmodel command hcommand⟩
  · have hfails : ∃ entry ∈ (({} : CommandTree).insertEach deferringDeclarations).commands,
        entry.2.flatten entry.1 [] = .error (.unresolvedParentParameter "tool run" "token") := by
      decide +kernel
    obtain ⟨entry, hentry, hflatten⟩ := hfails
    have herror : ∃ path parameter,
        entry.2.flatten entry.1 [] = .error (.unresolvedParentParameter path parameter) := ⟨_, _, hflatten⟩
    exact ⟨entry, hentry, herror, ((flatten_completes _ _).1 entry hentry).1.mp herror⟩

end CommandDoc
