import CommandDoc.Proofs.Tree.Deferral

/-!
# Parameters handed down

The parameters of a scope that are marked for it are handed down to the nodes below, unless a scope on the
way, or the node itself, has one of the same name.  The groups of a node are computed by a walk upwards that
collects the names met; this module describes them scope by scope.

Main definitions:

- `Command.Hides`: a name stands on the way from a scope down to a path.
- `Command.handedDown`: what a scope hands down to a path.
- `Command.HasMet`: the names that the walk has met.
- `Command.HandsDown`: what the groups of a node are.
- `Node.Sees`: some group of a node has a parameter of a name.

Main results:

- Theorem `inheritedGroups_eq_filterMap`: the walk gives one group for each scope that hands something down.
- Theorem `handsDown_of_flatten`: so it is in every flattened tree.
- Theorem `sees_iff_of_deferred`: a node that defers cuts off what is handed down to the nodes below it.
-/

namespace CommandDoc

/-! ## What a scope hands down -/

namespace Command

/-- A name stands on the way down: a scope below `above`, down to the one at `path`, has a parameter of that
name. -/
def Hides (command : Command) (above path : List String) (name : String) : Prop :=
  ∃ between ∈ starts path, IsAbove above between ∧
    name ∈ (command.parametersAt between).map (·.name)

instance (command : Command) (above path : List String) (name : String) :
    Decidable (command.Hides above path name) :=
  inferInstanceAs (Decidable (∃ between ∈ starts path, IsAbove above between ∧
    name ∈ (command.parametersAt between).map (·.name)))

/-- What the scope at `above` hands down to a path. -/
def handedDown (command : Command) (path above : List String) : List Parameter :=
  (command.parametersAt above).filter fun p => p.inherited && !decide (command.Hides above path p.name)

/-- The group of a scope, if it hands something down. -/
def groupFrom? (command : Command) (path above : List String) : Option InheritedGroup :=
  if (command.handedDown path above).isEmpty then none
  else some ⟨pathLabel command.name above, command.handedDown path above⟩

end Command

/-! ## The walk upwards -/

namespace Command

/-- The names that a walk upwards from a path has met, when `near` are the scopes it has passed: those of the
parameters there and at the path itself. -/
def HasMet (command : Command) (path : List String) (near : List (List String)) (names : List String) :
    Prop :=
  ∀ name, name ∈ names ↔
    ∃ between, (between = path ∨ between ∈ near) ∧ name ∈ (command.parametersAt between).map (·.name)

namespace HasMet

variable {command : Command} {path : List String} {near : List (List String)} {names : List String}

theorem start (command : Command) (path : List String) :
    command.HasMet path [] ((command.parametersAt path).map (·.name)) := by
  intro name
  simp

/-- One scope on. -/
theorem step (h : command.HasMet path near names) (above : List String) :
    command.HasMet path (near ++ [above]) ((command.parametersAt above).map (·.name) ++ names) := by
  intro name
  rw [List.mem_append, h name]
  constructor
  · rintro (hname | ⟨between, hbetween | hbetween, hname⟩)
    · exact ⟨above, Or.inr (List.mem_append_right _ List.mem_cons_self), hname⟩
    · exact ⟨between, Or.inl hbetween, hname⟩
    · exact ⟨between, Or.inr (List.mem_append_left _ hbetween), hname⟩
  · rintro ⟨between, hbetween | hbetween, hname⟩
    · exact Or.inr ⟨between, Or.inl hbetween, hname⟩
    · rcases List.mem_append.mp hbetween with hbetween | hbetween
      · exact Or.inr ⟨between, Or.inr hbetween, hname⟩
      · rw [List.mem_singleton.mp hbetween] at hname
        exact Or.inl hname

/-- What has been met before a scope is what hides its parameters. -/
theorem mem_iff_hides (h : command.HasMet path near names) (hne : path ≠ []) {above : List String}
    {far : List (List String)} (hsplit : pathsAbove path = near ++ above :: far) (name : String) :
    name ∈ names ↔ command.Hides above path name := by
  rw [h name]
  refine exists_congr fun between => ?_
  rw [mem_before_iff hne hsplit, mem_starts]
  constructor
  · rintro ⟨rfl | ⟨habove, hpath⟩, hname⟩
    · have hlisted : above ∈ pathsAbove between := by
        rw [hsplit]
        exact List.mem_append_right _ List.mem_cons_self
      exact ⟨⟨hne, List.prefix_refl _⟩, (mem_pathsAbove hne).mp hlisted, hname⟩
    · exact ⟨⟨habove.ne_nil, hpath.1⟩, habove, hname⟩
  · rintro ⟨⟨-, hstart⟩, habove, hname⟩
    by_cases heq : between = path
    · exact ⟨Or.inl heq, hname⟩
    · exact ⟨Or.inr ⟨habove, hstart, heq⟩, hname⟩

end HasMet

end Command

/-- From any scope on, the walk goes on with the groups of the scopes that are left. -/
theorem inheritedGroups_eq_filterMap {command : Command} {path : List String} (hne : path ≠ [])
    {near far : List (List String)} (hsplit : pathsAbove path = near ++ far) {shadowed : List String}
    (hshadowed : command.HasMet path near shadowed) :
    inheritedGroups shadowed
        (far.map fun above => (pathLabel command.name above, command.parametersAt above))
      = far.filterMap (command.groupFrom? path) := by
  induction far generalizing near shadowed with
  | nil => rfl
  | cons above far ih =>
    have hvisible : (command.parametersAt above).filter
          (fun p => p.inherited && !shadowed.contains p.name) = command.handedDown path above := by
      apply List.filter_congr
      intro p _
      rw [List.contains_eq_mem, decide_eq_decide.mpr (hshadowed.mem_iff_hides hne hsplit p.name)]
    have hrest := ih (by rw [hsplit, List.append_assoc, List.singleton_append]) (hshadowed.step above)
    rw [List.map_cons, inheritedGroups, List.filterMap_cons, Command.groupFrom?, hvisible, hrest]
    cases (command.handedDown path above).isEmpty with
    | true => rfl
    | false => rfl

/-! ## Flattened commands -/

namespace Command

theorem parametersAt_inherit (command : Command) (path : List String) :
    command.inherit.parametersAt path = command.parametersAt path := by
  rw [parametersAt, parametersAt, inherit, List.find?_map]
  have hfind : command.nodes.find? ((fun node : Node => node.path == path) ∘ command.withInherited)
      = command.nodes.find? (·.path == path) := rfl
  rw [hfind, Option.map_map]
  rfl

theorem handedDown_inherit (command : Command) (path above : List String) :
    command.inherit.handedDown path above = command.handedDown path above := by
  have hhides : ∀ name, command.inherit.Hides above path name ↔ command.Hides above path name := by
    intro name
    simp only [Hides, parametersAt_inherit]
  rw [handedDown, handedDown, parametersAt_inherit]
  apply List.filter_congr
  intro p _
  rw [decide_eq_decide.mpr (hhides p.name)]

theorem groupFrom?_inherit (command : Command) (path : List String) :
    command.inherit.groupFrom? path = command.groupFrom? path := by
  funext above
  rw [groupFrom?, groupFrom?, handedDown_inherit]
  rfl

/-- The groups that the second pass gives a node, scope by scope. -/
theorem LaidOut.inherited_withInherited {command : Command} {paths : List (List String)}
    (laid : command.LaidOut paths) (row : IsPathRow paths) {node : Node} (hnode : node ∈ command.nodes) :
    (command.withInherited node).inherited
      = (pathsAbove node.path).filterMap (command.groupFrom? node.path) := by
  rw [withInherited, laid.scopesAbove_eq row hnode, ← laid.parametersAt_path row hnode]
  exact inheritedGroups_eq_filterMap (row.ne_nil _ (laid.path_mem hnode)) (List.nil_append _).symm
    (.start command node.path)

end Command

namespace Branch

variable {branch : Branch} {name : String} {reserved : List String} {command : Command}

/-- The groups of a node of a flattened command, scope by scope. -/
theorem inherited_of_flatten (row : IsPathRow branch.paths)
    (h : branch.flatten name reserved = .ok command) {node : Node} (hnode : node ∈ command.nodes) :
    node.inherited = (pathsAbove node.path).filterMap (command.groupFrom? node.path) := by
  unfold flatten at h
  obtain ⟨resolved, hresolved, rfl⟩ := map_eq_ok_iff.mp h
  obtain ⟨nodes, rfl, houtline⟩ := Command.resolve_eq_ok hresolved
  obtain ⟨old, hold, rfl⟩ := List.mem_map.mp hnode
  have laid := (branch.laidOut_row name reserved).of_outline houtline
  rw [laid.inherited_withInherited row hold, Command.groupFrom?_inherit]
  rfl

/-- Every parameter of a flattened command is what a declared one becomes. -/
theorem IsCompleted.exists_completes (h : branch.IsCompleted name command) {path : List String}
    {p : Parameter} (hp : p ∈ command.parametersAt path) :
    ∃ declared ∈ branch.parametersAt path, branch.Completes name path declared p := by
  unfold Command.parametersAt at hp
  split at hp
  · next hnil =>
    rw [List.isEmpty_iff.mp hnil]
    exact exists_of_mem_right h.root hp
  · cases hfind : command.nodes.find? (·.path == path) with
    | none =>
      rw [hfind] at hp
      cases hp
    | some node =>
      rw [hfind] at hp
      have hpath : node.path = path := by simpa using List.find?_some hfind
      rw [← hpath]
      exact exists_of_mem_right (h.nodes node (List.mem_of_find?_eq_some hfind)) hp

/-- A parameter that is handed down has the label of the place where it stands. -/
theorem IsCompleted.declaredBy_eq (h : branch.IsCompleted name command) {path : List String}
    {p : Parameter} (hp : p ∈ command.parametersAt path) (hinherited : p.inherited = true) :
    p.declaredBy = some (pathLabel name path) := by
  obtain ⟨declared, -, hcompletes⟩ := h.exists_completes hp
  cases hcompletes with
  | own _ => rfl
  | deferred _ _ => cases hinherited

/-- A parameter that defers is not handed down. -/
theorem IsCompleted.inherited_eq_false (h : branch.IsCompleted name command) {path : List String}
    {p : Parameter} (hp : p ∈ command.parametersAt path) (hdefers : p.fromParent = true) :
    p.inherited = false := by
  obtain ⟨declared, -, hcompletes⟩ := h.exists_completes hp
  cases hcompletes with
  | own hown => rw [hown] at hdefers; cases hdefers
  | deferred _ _ => rfl

end Branch

/-! ## Groups of a node -/

theorem Command.mem_handedDown {command : Command} {path above : List String} {p : Parameter} :
    p ∈ command.handedDown path above ↔
      p ∈ command.parametersAt above ∧ p.inherited = true ∧ ¬ command.Hides above path p.name := by
  rw [handedDown, List.mem_filter, Bool.and_eq_true, Bool.not_eq_true', decide_eq_false_iff_not]

theorem Command.groupFrom?_eq_some_iff {command : Command} {path above : List String}
    {group : InheritedGroup} :
    command.groupFrom? path above = some group ↔
      command.handedDown path above ≠ [] ∧
        group = ⟨pathLabel command.name above, command.handedDown path above⟩ := by
  unfold groupFrom?
  rw [Option.ite_none_left_eq_some, Option.some.injEq, List.isEmpty_iff]
  exact and_congr_right fun _ => eq_comm

/-- Some group of a node has a parameter of a name. -/
def Node.Sees (node : Node) (name : String) : Prop :=
  ∃ group ∈ node.inherited, ∃ p ∈ group.parameters, p.name = name

/-- What is handed down to a node, in groups. -/
structure Command.HandsDown (command : Command) (node : Node) : Prop where
  /-- A parameter of a scope above stands in the group of that scope exactly if it is marked to be handed
  down and no scope on the way, the node included, has one of its name. -/
  mem_iff : ∀ above, IsAbove above node.path → ∀ p ∈ command.parametersAt above,
    ((∃ group ∈ node.inherited,
        group.declaredBy = pathLabel command.name above ∧ p ∈ group.parameters) ↔
      p.inherited = true ∧ ¬ command.Hides above node.path p.name)
  /-- The group holds these parameters as often and in the order as the scope has them. -/
  parameters_eq : ∀ above, IsAbove above node.path → ∀ group ∈ node.inherited,
    group.declaredBy = pathLabel command.name above →
      group.parameters = (command.parametersAt above).filter fun p =>
        p.inherited && !decide (command.Hides above node.path p.name)
  /-- The groups are those of scopes above, the nearest first and the command last. -/
  nearest_first : ∃ sources : List (List String),
    sources.Sublist ((command.ancestors node).map (·.path) ++ [[]]) ∧
      node.inherited.map (·.declaredBy) = sources.map (pathLabel command.name)
  /-- No scope has two groups. -/
  labels_nodup : (node.inherited.map (·.declaredBy)).Nodup
  /-- No group is empty. -/
  ne_nil : ∀ group ∈ node.inherited, group.parameters ≠ []
  /-- The parameters of a group have its label. -/
  declaredBy_eq : ∀ group ∈ node.inherited, ∀ p ∈ group.parameters,
    p.declaredBy = some group.declaredBy

namespace Command

/-- The labels of the groups are those of the scopes that hand something down. -/
theorem map_declaredBy_filterMap (command : Command) (path : List String) (sources : List (List String)) :
    (sources.filterMap (command.groupFrom? path)).map (·.declaredBy)
      = (sources.filter fun above => !(command.handedDown path above).isEmpty).map
          (pathLabel command.name) := by
  induction sources with
  | nil => rfl
  | cons above sources ih =>
    rw [List.filterMap_cons, List.filter_cons, groupFrom?]
    cases (command.handedDown path above).isEmpty with
    | true => exact ih
    | false => exact congrArg (pathLabel command.name above :: ·) ih

section

variable {command : Command} {node : Node} (hne : node.path ≠ [])
  (hgroups : node.inherited = (pathsAbove node.path).filterMap (command.groupFrom? node.path))

include hne hgroups

theorem mem_inherited_iff {group : InheritedGroup} :
    group ∈ node.inherited ↔
      ∃ source, IsAbove source node.path ∧ command.handedDown node.path source ≠ [] ∧
        group = ⟨pathLabel command.name source, command.handedDown node.path source⟩ := by
  rw [hgroups, List.mem_filterMap]
  exact exists_congr fun source => and_congr (mem_pathsAbove hne) groupFrom?_eq_some_iff

/-- The group with the label of a scope above holds what that scope hands down. -/
theorem parameters_eq_handedDown {above : List String} (habove : IsAbove above node.path)
    {group : InheritedGroup} (hgroup : group ∈ node.inherited)
    (hlabel : group.declaredBy = pathLabel command.name above) :
    group.parameters = command.handedDown node.path above := by
  obtain ⟨source, hsource, -, rfl⟩ := (mem_inherited_iff hne hgroups).mp hgroup
  have heq : source = above :=
    List.inj_on_of_nodup_map (nodup_pathLabel_pathsAbove command.name node.path)
      ((mem_pathsAbove hne).mpr hsource) ((mem_pathsAbove hne).mpr habove) hlabel
  rw [heq]

/-- A parameter that is handed down stands in the group of its scope. -/
theorem exists_group_of_mem_handedDown {above : List String} (habove : IsAbove above node.path)
    {p : Parameter} (hp : p ∈ command.handedDown node.path above) :
    ∃ group ∈ node.inherited, group.declaredBy = pathLabel command.name above ∧ p ∈ group.parameters :=
  ⟨_, (mem_inherited_iff hne hgroups).mpr ⟨above, habove, List.ne_nil_of_mem hp, rfl⟩, rfl, hp⟩

/-- A node sees a name exactly if some scope above hands a parameter of that name down to it. -/
theorem sees_iff {name : String} :
    node.Sees name ↔
      ∃ source, IsAbove source node.path ∧
        ∃ p ∈ command.handedDown node.path source, p.name = name := by
  constructor
  · rintro ⟨group, hgroup, p, hp, hname⟩
    obtain ⟨source, hsource, -, rfl⟩ := (mem_inherited_iff hne hgroups).mp hgroup
    exact ⟨source, hsource, p, hp, hname⟩
  · rintro ⟨source, hsource, p, hp, hname⟩
    obtain ⟨group, hgroup, -, hmem⟩ := exists_group_of_mem_handedDown hne hgroups hsource hp
    exact ⟨group, hgroup, p, hmem, hname⟩

end

end Command

/-- In a flattened tree every node has exactly the groups that are handed down to it. -/
theorem handsDown_of_flatten {ds : List Declaration} {reserved : List String} {model : Model}
    (h : (({} : CommandTree).insertEach ds).flatten reserved = .ok model) :
    ∀ command ∈ model.commands, ∀ node ∈ command.nodes, command.HandsDown node := by
  intro command hcommand node hnode
  obtain ⟨row, hflatten⟩ := CommandTree.flatten_branch_name h hcommand
  have laid := Branch.laidOut_of_flatten hflatten
  have hcompleted := Branch.isCompleted_of_flatten row hflatten
  have hne := row.ne_nil _ (laid.path_mem hnode)
  have hgroups := Branch.inherited_of_flatten row hflatten hnode
  have hlabels : node.inherited.map (·.declaredBy)
      = ((pathsAbove node.path).filter fun above => !(command.handedDown node.path above).isEmpty).map
          (pathLabel command.name) := by
    rw [hgroups, command.map_declaredBy_filterMap]
  refine
    { mem_iff := ?_, parameters_eq := ?_, nearest_first := ?_, labels_nodup := ?_, ne_nil := ?_
      declaredBy_eq := ?_ }
  · intro above habove p hp
    constructor
    · rintro ⟨group, hgroup, hlabel, hmem⟩
      rw [Command.parameters_eq_handedDown hne hgroups habove hgroup hlabel] at hmem
      exact (Command.mem_handedDown.mp hmem).2
    · intro hhanded
      exact Command.exists_group_of_mem_handedDown hne hgroups habove
        (Command.mem_handedDown.mpr ⟨hp, hhanded⟩)
  · intro above habove group hgroup hlabel
    exact Command.parameters_eq_handedDown hne hgroups habove hgroup hlabel
  · refine ⟨_, ?_, hlabels⟩
    rw [(laid.climbs_ancestors row hnode).2.2]
    exact List.filter_sublist
  · rw [hlabels]
    exact (nodup_pathLabel_pathsAbove command.name node.path).sublist (List.filter_sublist.map _)
  · intro group hgroup
    obtain ⟨source, -, hsome, rfl⟩ := (Command.mem_inherited_iff hne hgroups).mp hgroup
    exact hsome
  · intro group hgroup p hp
    obtain ⟨source, -, -, rfl⟩ := (Command.mem_inherited_iff hne hgroups).mp hgroup
    obtain ⟨hmem, hinherited, -⟩ := Command.mem_handedDown.mp hp
    exact hcompleted.declaredBy_eq hmem hinherited

/-- Declarations of a command, a subcommand and one below, of which the first two hand parameters down and
the lower ones have some of the same names. -/
def shadowingDeclarations : List Declaration :=
  let marked (name : String) : Parameter :=
    { name := name, type := .scalar .string, flags := [name], inherited := true }
  let timeout : Parameter := { name := "timeout", type := .scalar .duration }
  [{ Declaration.plain "app" ["remote", "add"] "Add" with parameters := [timeout] },
    { Declaration.plain "app" [] "App" with parameters := [marked "verbose", marked "config"] },
    { Declaration.plain "app" ["remote"] "Remote" with parameters := [marked "config", marked "timeout"] }]

/-- The lowest subcommand gets a group from each of the two scopes above it. -/
theorem handsDown_of_flatten_shadowingDeclarations :
    ∃ model, (({} : CommandTree).insertEach shadowingDeclarations).flatten [] = .ok model ∧
      ∃ command ∈ model.commands, ∃ node ∈ command.nodes,
        node.inherited.map (·.declaredBy) = ["app remote", "app"] ∧ command.HandsDown node := by
  have hok : ((({} : CommandTree).insertEach shadowingDeclarations).flatten []).map (fun model =>
      decide (∃ command ∈ model.commands, ∃ node ∈ command.nodes,
        node.inherited.map (·.declaredBy) = ["app remote", "app"])) = .ok true := by
    decide +kernel
  obtain ⟨model, hmodel, hgroups⟩ := map_eq_ok_iff.mp hok
  obtain ⟨command, hcommand, node, hnode, hlabels⟩ := of_decide_eq_true hgroups
  exact ⟨model, hmodel, command, hcommand, node, hnode, hlabels,
    handsDown_of_flatten hmodel command hcommand node hnode⟩

/-! ## Deferring cuts off what is handed down -/

/-- A scope hands a parameter down, the node has none of its name, and the scopes between them that have one
only defer.  Then the node sees the name exactly if there is no such scope: a deferring parameter hides the
one that it defers to, and is not handed down itself. -/
theorem sees_iff_of_deferred {ds : List Declaration} {reserved : List String} {model : Model}
    (h : (({} : CommandTree).insertEach ds).flatten reserved = .ok model)
    {command : Command} (hcommand : command ∈ model.commands) {node : Node} (hnode : node ∈ command.nodes)
    {above : List String} (habove : IsAbove above node.path)
    {p : Parameter} (hp : p ∈ command.parametersAt above) (hinherited : p.inherited = true)
    (hown : p.name ∉ node.parameters.map (·.name))
    (hdefers : ∀ between, IsAbove above between → IsAbove between node.path →
      ∀ q ∈ command.parametersAt between, q.name = p.name → q.fromParent = true) :
    node.Sees p.name ↔
      ∀ between, IsAbove above between → IsAbove between node.path →
        p.name ∉ (command.parametersAt between).map (·.name) := by
  obtain ⟨row, hflatten⟩ := CommandTree.flatten_branch_name h hcommand
  have laid := Branch.laidOut_of_flatten hflatten
  have hcompleted := Branch.isCompleted_of_flatten row hflatten
  have hne := row.ne_nil _ (laid.path_mem hnode)
  have hgroups := Branch.inherited_of_flatten row hflatten hnode
  rw [Command.sees_iff hne hgroups]
  constructor
  · rintro ⟨source, hsource, q, hq, hname⟩ between hbetween hpath hdeclared
    obtain ⟨hmem, hmarked, hseen⟩ := Command.mem_handedDown.mp hq
    -- The group comes from a scope that is not above the deferring one, so its parameter defers too.
    have hbelow : IsAbove above source := by
      rcases isAbove_trichotomy hsource.1 hpath.1 with hhidden | rfl | hbelow
      · refine absurd ?_ hseen
        rw [hname]
        exact ⟨between, mem_starts.mpr ⟨hhidden.ne_nil, hpath.1⟩, hhidden, hdeclared⟩
      · exact hbetween
      · exact hbetween.trans hbelow
    have hfalse := hcompleted.inherited_eq_false hmem (hdefers source hbelow hsource q hmem hname)
    rw [hmarked] at hfalse
    cases hfalse
  · intro hclear
    have hhides : ¬ command.Hides above node.path p.name := by
      rintro ⟨between, hbetween, hbelow, hdeclared⟩
      by_cases hself : between = node.path
      · rw [hself, laid.parametersAt_path row hnode] at hdeclared
        exact hown hdeclared
      · exact hclear between hbelow ⟨(mem_starts.mp hbetween).2, hself⟩ hdeclared
    exact ⟨above, habove, p, Command.mem_handedDown.mpr ⟨hp, hinherited, hhides⟩, rfl⟩

/-- Declarations of a command that hands a parameter down, of a subcommand that defers to it, and of one
below that does not mention it. -/
def cutOffDeclarations : List Declaration :=
  let token : Parameter :=
    { name := "token", type := .scalar .string, flags := ["token", "t"], inherited := true }
  let deferred : Parameter := { name := "token", type := .scalar .string, fromParent := true }
  [{ Declaration.plain "app" [] "App" with parameters := [token] },
    { Declaration.plain "app" ["push"] "Push" with parameters := [deferred] },
    Declaration.plain "app" ["push", "all"] "PushAll"]

/-- The lowest subcommand does not see the parameter. -/
theorem sees_iff_of_deferred_cutOffDeclarations :
    ∃ model, (({} : CommandTree).insertEach cutOffDeclarations).flatten [] = .ok model ∧
      ∃ command ∈ model.commands, ∃ p ∈ command.parametersAt [], p.inherited = true ∧
        p.fromParent = false ∧ ∃ node ∈ command.nodes, node.path = ["push", "all"] ∧
          ¬ node.Sees p.name := by
  have hok : ((({} : CommandTree).insertEach cutOffDeclarations).flatten []).map (fun model =>
      decide (∃ command ∈ model.commands, ∃ p ∈ command.parametersAt [], p.inherited = true ∧
        p.fromParent = false ∧ ∃ node ∈ command.nodes, node.path = ["push", "all"] ∧
          p.name ∉ node.parameters.map (·.name) ∧
          p.name ∈ (command.parametersAt ["push"]).map (·.name) ∧
          ∀ between ∈ pathsAbove ["push", "all"], IsAbove [] between →
            ∀ q ∈ command.parametersAt between, q.name = p.name → q.fromParent = true)) = .ok true := by
    decide +kernel
  obtain ⟨model, hmodel, hshape⟩ := map_eq_ok_iff.mp hok
  obtain ⟨command, hcommand, p, hp, hinherited, hfromParent, node, hnode, hpath, hown, hpush, hdefers⟩ :=
    of_decide_eq_true hshape
  refine ⟨model, hmodel, command, hcommand, p, hp, hinherited, hfromParent, node, hnode, hpath, ?_⟩
  have hsees := sees_iff_of_deferred hmodel hcommand hnode
    (by rw [hpath]; decide) hp hinherited hown (by
      intro between hbetween habove
      rw [hpath] at habove
      exact hdefers between ((mem_pathsAbove (by simp)).mpr habove) hbetween)
  rw [hsees]
  intro hclear
  exact hclear ["push"] (by decide) (by rw [hpath]; decide) hpush

end CommandDoc
