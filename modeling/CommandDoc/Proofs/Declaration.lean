import CommandDoc.Proofs.Model.Position

/-!
# What a declaration keeps of the signature

Every parameter of a signature becomes one finished parameter.  Whatever the comments say, it has the name
and the type of the signature, and it is a repeated argument if the signature repeats it.  Numbering the
arguments changes nothing but positions.

Main definitions:

- `TypedParam.Becomes`: what a finished parameter keeps of the signature.
- `Parameter.Numbered`: a parameter before and after the arguments are numbered.
- `Declaration.FollowsSignature`: one finished parameter for each of the signature, in order.

Main results:

- Theorem `becomes_resolve`: the rule for one parameter.
- Theorem `forall₂_numbered_of_assignPositions`: numbering is done parameter by parameter.
- Theorem `SourceUnit.extractCommand_eq_ok`: what a function declares.
- Theorem `SourceUnit.followsSignature_of_mem_declarations`: whatever a unit declares follows the signature.
-/

namespace CommandDoc

/-! ## Finished parameters -/

/-- What a finished parameter keeps of the signature. -/
structure TypedParam.Becomes (typed : TypedParam) (p : Parameter) : Prop where
  /-- It has the name. -/
  name_eq : p.name = typed.name
  /-- It has the type. -/
  type_eq : p.type = typed.type
  /-- If the signature repeats it, it is repeated. -/
  vararg_of_variadic : typed.variadic = true → p.vararg = true
  /-- If it is repeated, it is an argument. -/
  positional_of_vararg : p.vararg = true → p.positional = true

theorem becomes_ofCandidate (name : String) (type : TypeTag) (candidate : Candidate) :
    TypedParam.Becomes ⟨name, type, false⟩ (.ofCandidate name type candidate) where
  name_eq := rfl
  type_eq := rfl
  vararg_of_variadic := fun h => nomatch h
  positional_of_vararg := by
    intro hvararg
    change (candidate.positional || candidate.vararg) = true
    rw [show candidate.vararg = true from hvararg, Bool.or_true]

theorem TypedParam.Becomes.withVariadic {name : String} {type : TypeTag} {p : Parameter}
    (h : TypedParam.Becomes ⟨name, type, false⟩ p) (variadic : Bool) :
    TypedParam.Becomes ⟨name, type, variadic⟩ (p.withVariadic variadic) := by
  cases variadic with
  | false => exact h
  | true => exact ⟨h.name_eq, h.type_eq, fun _ => rfl, fun _ => rfl⟩

theorem TypedParam.Becomes.withKebabFlag {typed : TypedParam} {p : Parameter} (h : typed.Becomes p) :
    typed.Becomes p.withKebabFlag := by
  rw [Parameter.withKebabFlag]
  split
  · exact ⟨h.name_eq, h.type_eq, h.vararg_of_variadic, h.positional_of_vararg⟩
  · exact h

/-- Whatever the comments say, a parameter of the signature is kept. -/
theorem becomes_resolve (typed : TypedParam) (merged : Candidate) :
    typed.Becomes (Parameter.resolve typed merged) :=
  ((becomes_ofCandidate typed.name typed.type merged).withVariadic typed.variadic).withKebabFlag

/-- Each parameter of the signature is finished in its turn. -/
theorem forall₂_becomes_finishParameters (documented : List (String × Candidate))
    (pairs : List (SourceParam × TypedParam)) :
    List.Forall₂ TypedParam.Becomes (pairs.map (·.2)) (finishParameters documented pairs).1 := by
  induction pairs generalizing documented with
  | nil => exact .nil
  | cons pair pairs ih => exact .cons (becomes_resolve pair.2 _) (ih _)

/-! ## Numbered arguments -/

/-- A parameter before and after the arguments are numbered: only its position may differ. -/
def Parameter.Numbered (p q : Parameter) : Prop :=
  ∃ position, q = { p with position := position }

theorem Parameter.FilledIn.numbered {p q : Parameter} (h : p.FilledIn q) : p.Numbered q := by
  rw [FilledIn] at h
  split at h
  · exact ⟨_, h⟩
  · exact ⟨p.position, h⟩

/-- Numbering is done parameter by parameter. -/
theorem forall₂_numbered_of_assignPositions {function : String} {parameters numbered : List Parameter}
    (h : assignPositions function parameters = .ok numbered) :
    List.Forall₂ Parameter.Numbered parameters numbered :=
  (forall₂_filledIn_of_assignPositions h).imp fun _ _ hfilled => hfilled.numbered

theorem TypedParam.Becomes.numbered {typed : TypedParam} {p q : Parameter} (h : typed.Becomes p)
    (hnumbered : p.Numbered q) : typed.Becomes q := by
  obtain ⟨position, rfl⟩ := hnumbered
  exact ⟨h.name_eq, h.type_eq, h.vararg_of_variadic, h.positional_of_vararg⟩

/-! ## Declarations -/

/-- A declaration has one finished parameter for each parameter of the signature, in order. -/
def Declaration.FollowsSignature (d : Declaration) : Prop :=
  List.Forall₂ TypedParam.Becomes d.binding.parameters d.parameters

namespace SourceUnit

variable {source : SourceUnit} {f : SourceFunction} {extraction : Extraction} {d : Declaration}

/-- What a function declares: the words of its comment, its signature, and the finished parameters. -/
theorem extractCommand_eq_ok {directive : Directive} {style : List Warning}
    (h : source.extractCommand f directive style = .ok extraction) (hd : d ∈ extraction.declarations) :
    d.command = directive.command ∧ d.path = directive.sequence ∧
      f.parameters.mapM (·.typed f.name) = .ok d.binding.parameters ∧
        assignPositions f.name
            (finishParameters directive.params (f.parameters.zip d.binding.parameters)).1
          = .ok d.parameters := by
  unfold extractCommand at h
  split at h
  · cases h
  · rcases bind_eq_ok_iff.mp h with ⟨signature, hsignature, hrest⟩
    rcases bind_eq_ok_iff.mp hrest with ⟨parameters, hparameters, heq⟩
    cases heq
    rw [List.mem_singleton.mp hd]
    exact ⟨rfl, rfl, hsignature, hparameters⟩

/-- What a function declares, its comment names a command for. -/
theorem extractCommand_of_extractFunction (h : source.extractFunction f = .ok extraction)
    (hd : d ∈ extraction.declarations) :
    (readComment f.name f.doc).1.command ≠ "" ∧
      source.extractCommand f (readComment f.name f.doc).1 (readComment f.name f.doc).2 = .ok extraction := by
  unfold extractFunction at h
  dsimp only at h
  split at h
  · cases h
    cases hd
  · split at h
    · cases h
      cases hd
    · next hnamed => exact ⟨by simpa using hnamed, h⟩

/-- Whatever a unit declares is declared by a function whose comment names a command. -/
theorem exists_extractCommand_of_mem (h : source.extract = .ok extraction)
    (hd : d ∈ extraction.declarations) :
    ∃ f ∈ source.functions, (readComment f.name f.doc).1.command ≠ "" ∧ ∃ style part,
      source.extractCommand f (readComment f.name f.doc).1 style = .ok part ∧ d ∈ part.declarations := by
  rw [extract] at h
  rcases bind_eq_ok_iff.mp h with ⟨parts, hparts, heq⟩
  cases heq
  rcases List.mem_flatMap.mp hd with ⟨part, hpart, hd⟩
  rcases exists_of_mem_of_mapM_eq_ok hparts hpart with ⟨f, hf, hextract⟩
  rcases extractCommand_of_extractFunction hextract hd with ⟨hnamed, hcommand⟩
  exact ⟨f, hf, hnamed, _, part, hcommand, hd⟩

/-- Whatever a unit declares follows the signature of its function. -/
theorem followsSignature_of_mem_declarations (h : source.extract = .ok extraction)
    (hd : d ∈ extraction.declarations) : d.FollowsSignature := by
  rcases exists_extractCommand_of_mem h hd with ⟨f, -, -, style, part, hpart, hd⟩
  rcases extractCommand_eq_ok hpart hd with ⟨-, -, hsignature, hparameters⟩
  have hlength : f.parameters.length = d.binding.parameters.length :=
    (mapM_eq_ok_iff.mp hsignature).length_eq
  have hfinished := forall₂_becomes_finishParameters (readComment f.name f.doc).1.params
    (f.parameters.zip d.binding.parameters)
  rw [List.map_snd_zip (Nat.le_of_eq hlength.symm)] at hfinished
  exact forall₂_of_forall₂_forall₂ (fun _ _ _ hbecomes hnumbered => hbecomes.numbered hnumbered) hfinished
    (forall₂_numbered_of_assignPositions hparameters)

end SourceUnit

end CommandDoc
