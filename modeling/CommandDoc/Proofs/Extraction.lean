import CommandDoc.Proofs.Comment.Directive
import CommandDoc.Proofs.Declaration

/-!
# What becomes of a doc comment

What a doc comment says about parameters is handed out while the signature is walked through: every parameter
takes what is said about its name, so that nothing is left for later ones of the name.  What is left at the end
is reported.

Main definitions:

- `SourceParam.beside`: what the comments beside a parameter say about it.
- `SourceFunction.unknownNames` and `Declaration.undescribed`: what is reported.
- `SourceFunction.AccountsFor`: the warnings about a function, and where the entries of its comment went.

Main results:

- Theorem `Candidate.merge_candidates_some`: an entry of the doc comment lies over the comments beside.
- Theorems `finishParameters_snd` and `getElem?_finishParameters`: which entries are left, and which parameter
  gets which.
- Theorem `accountsFor_extractFunction`: whatever declares a command is accounted for.
-/

namespace CommandDoc

/-! ## Entries and comments beside a parameter -/

/-- What the comments beside a parameter say about it. -/
def SourceParam.beside (p : SourceParam) : Candidate :=
  Candidate.merge (candidates none p)

namespace Candidate

/-- No comment beside a parameter is a doc comment. -/
theorem ofSource_docComment_candidates_none (p : SourceParam) :
    ofSource .docComment (candidates none p) = [] := by
  rw [ofSource, List.map_eq_nil_iff, List.filter_eq_nil_iff]
  intro entry hentry
  simp only [candidates, Option.map_none, Option.toList_none, List.nil_append, List.mem_append,
    Option.mem_toList, Option.map_eq_some_iff] at hentry
  rcases hentry with ⟨text, -, rfl⟩ | ⟨text, -, rfl⟩
  · simp
  · simp

/-- What the doc comment says about a parameter lies over what the comments beside it say. -/
theorem merge_candidates_some (c : Candidate) (p : SourceParam) :
    merge (candidates (some c) p) = overlay p.beside c := by
  have hcons : candidates (some c) p = (.docComment, c) :: candidates none p := rfl
  have hpriority : byPriority (candidates (some c) p) = byPriority (candidates none p) ++ [c] := by
    rw [byPriority, byPriority, ofSource_docComment_candidates_none, List.append_nil, hcons]
    change ofSource .precedingComment (candidates none p) ++ ofSource .inlineComment (candidates none p)
      ++ c :: ofSource .docComment (candidates none p) = _
    rw [ofSource_docComment_candidates_none]
  rw [merge, hpriority, List.foldl_append]
  rfl

end Candidate

/-! ## Handing out entries -/

/-- What is left over is said about names that are not in the signature. -/
theorem finishParameters_snd (documented : List (String × Candidate))
    (pairs : List (SourceParam × TypedParam)) :
    (finishParameters documented pairs).2
      = documented.filter fun entry => entry.1 ∉ pairs.map (·.2.name) := by
  induction pairs generalizing documented with
  | nil => simp [finishParameters]
  | cons pair pairs ih =>
    change (finishParameters (Ordered.erase pair.2.name documented) pairs).2 = _
    rw [ih, Ordered.erase, List.filter_filter]
    congr 1
    funext entry
    rw [← Bool.decide_and]
    simp only [List.map_cons, List.mem_cons, not_or, and_comm]

/-- A parameter gets what is said about its name if no parameter in front of it has the name. -/
theorem getElem?_finishParameters (documented : List (String × Candidate))
    {pairs : List (SourceParam × TypedParam)} {i : Nat} {p : SourceParam} {typed : TypedParam}
    (h : pairs[i]? = some (p, typed)) :
    (finishParameters documented pairs).1[i]? = some (Parameter.resolve typed (Candidate.merge (candidates
      (if typed.name ∈ (pairs.take i).map (·.2.name) then none else Ordered.find? typed.name documented)
      p))) := by
  induction pairs generalizing documented i with
  | nil => cases h
  | cons pair pairs ih =>
    have hcons : (finishParameters documented (pair :: pairs)).1
        = Parameter.resolve pair.2 (Candidate.merge
            (candidates (Ordered.find? pair.2.name documented) pair.1))
          :: (finishParameters (Ordered.erase pair.2.name documented) pairs).1 := rfl
    rw [hcons]
    cases i with
    | zero =>
      rw [List.getElem?_cons_zero, Option.some_inj] at h
      rw [h]
      rfl
    | succ i =>
      rw [List.getElem?_cons_succ] at h ⊢
      rw [ih _ h, Ordered.find?_erase, List.take_succ_cons, List.map_cons]
      -- The name is taken by the first parameter, or by one between, or by none.
      by_cases hfirst : typed.name = pair.2.name
      · simp [hfirst]
      · simp [hfirst]

/-! ## Reports -/

/-- The names that the comment of a function documents and that are not in its signature. -/
def SourceFunction.unknownNames (f : SourceFunction) : List String :=
  ((readComment f.name f.doc).1.params.map (·.1)).filter fun name => name ∉ f.parameters.map (·.name)

/-- The names of the parameters without a description, if there are others with one.  Parameters that are
declared above do not count. -/
def Declaration.undescribed (d : Declaration) : List String :=
  if ∃ p ∈ d.parameters, p.fromParent = false ∧ p.description.isSome = true then
    (d.parameters.filter fun p => !p.fromParent && p.description.isNone).map (·.name)
  else []

/-- The parameter of a declaration at a place in the signature is made of its type and what is known about it;
only its position may be added. -/
def Declaration.Finishes (d : Declaration) (i : Nat) (known : Candidate) : Prop :=
  ∃ typed p, d.binding.parameters[i]? = some typed ∧ d.parameters[i]? = some p ∧
    (Parameter.resolve typed known).FilledIn p

/-- The warnings about a function that declares a command, and where the entries of its comment went. -/
structure SourceFunction.AccountsFor (f : SourceFunction) (extraction : Extraction) (d : Declaration) :
    Prop where
  /-- Names are documented once each, in ascending order. -/
  ascending : ((readComment f.name f.doc).1.params.map (·.1)).Pairwise (· < ·)
  /-- Behind the warnings about the layout of the comment, there is one for each documented name that is not
  in the signature, one if a subcommand has no short description, and one for each parameter without a
  description beside others with one. -/
  warnings : extraction.warnings = (readComment f.name f.doc).2
    ++ f.unknownNames.map (fun name => ⟨.unknownParameter, d.label,
        "documented parameter '" ++ name ++ "' is not in the signature of " ++ f.name⟩)
    ++ (if d.path ≠ [] ∧ d.description = none then
        [⟨.missingShortDescription, d.label, "subcommand has no short description"⟩] else [])
    ++ d.undescribed.map fun name => ⟨.missingParameterDescription, d.label,
        "parameter '" ++ name ++ "' has no description"⟩
  /-- What is documented about a name lies over the comments beside the first parameter of that name. -/
  used : ∀ i p c, f.parameters[i]? = some p → p.name ∉ (f.parameters.take i).map (·.name) →
    (p.name, c) ∈ (readComment f.name f.doc).1.params → d.Finishes i (Candidate.overlay p.beside c)
  /-- A later parameter of a name, or one of a name that is not documented, has only the comments beside
  it. -/
  unused : ∀ i p, f.parameters[i]? = some p →
    p.name ∈ (f.parameters.take i).map (·.name) ∨ p.name ∉ (readComment f.name f.doc).1.params.map (·.1) →
      d.Finishes i p.beside

/-- The names that a comment documents stand in ascending order. -/
theorem pairwise_map_fst_params (function doc : String) :
    ((readComment function doc).1.params.map (·.1)).Pairwise (· < ·) := by
  rw [readComment, Directive.map_fst_params]
  exact (Ordered.pairwise_sortDistinct Ordered.stringBefore_strictOrder _).imp of_decide_eq_true

theorem descriptionWarnings_eq (d : Declaration) :
    descriptionWarnings d.label d.parameters = d.undescribed.map fun name =>
      ⟨.missingParameterDescription, d.label, "parameter '" ++ name ++ "' has no description"⟩ := by
  have hany : ((d.parameters.filter fun p => !p.fromParent).any fun p => p.description.isSome) = true ↔
      ∃ p ∈ d.parameters, p.fromParent = false ∧ p.description.isSome = true := by
    simp
  rw [descriptionWarnings, Declaration.undescribed]
  simp only [hany, List.filter_filter]
  split
  · rw [List.map_map]
    congr 2
    funext p
    rw [Bool.and_comm]
  · rfl

/-! ## Functions that declare a command -/

section

variable {source : SourceUnit} {f : SourceFunction} {extraction : Extraction} {d : Declaration}

/-- The warnings about a function that declares a command. -/
theorem SourceUnit.warnings_of_extractCommand {directive : Directive} {style : List Warning}
    (h : source.extractCommand f directive style = .ok extraction) (hd : d ∈ extraction.declarations) :
    d.description = directive.description ∧
      extraction.warnings = style
        ++ unknownParameterWarnings f.name d.label
            (finishParameters directive.params (f.parameters.zip d.binding.parameters)).2
        ++ shortDescriptionWarnings d.label directive ++ descriptionWarnings d.label d.parameters := by
  unfold extractCommand at h
  split at h
  · cases h
  · rcases bind_eq_ok_iff.mp h with ⟨signature, hsignature, hrest⟩
    rcases bind_eq_ok_iff.mp hrest with ⟨parameters, hparameters, heq⟩
    cases heq
    rw [List.mem_singleton.mp hd]
    exact ⟨rfl, rfl⟩

theorem SourceParam.typed_name {function : String} {p : SourceParam} {typed : TypedParam}
    (h : p.typed function = .ok typed) : typed.name = p.name := by
  unfold SourceParam.typed at h
  split at h
  · cases h
    rfl
  · cases h

theorem map_name_zip {function : String} {signature : List TypedParam}
    (h : f.parameters.mapM (·.typed function) = .ok signature) :
    (f.parameters.zip signature).map (·.2.name) = f.parameters.map (·.name) := by
  have hnames : signature.map (·.name) = f.parameters.map (·.name) :=
    map_eq_of_mapM_eq_ok (fun _ _ => SourceParam.typed_name) h
  have hlength : f.parameters.length = signature.length := (mapM_eq_ok_iff.mp h).length_eq
  calc (f.parameters.zip signature).map (·.2.name)
      = ((f.parameters.zip signature).map (·.2)).map (·.name) := List.map_map.symm
    _ = signature.map (·.name) := by rw [List.map_snd_zip (Nat.le_of_eq hlength.symm)]
    _ = f.parameters.map (·.name) := hnames

/-- What is left over of a comment is reported by name. -/
theorem unknownParameterWarnings_eq {function : String} {signature : List TypedParam}
    (h : f.parameters.mapM (·.typed function) = .ok signature) :
    unknownParameterWarnings f.name d.label
        (finishParameters (readComment f.name f.doc).1.params (f.parameters.zip signature)).2
      = f.unknownNames.map fun name => ⟨.unknownParameter, d.label,
          "documented parameter '" ++ name ++ "' is not in the signature of " ++ f.name⟩ := by
  rw [finishParameters_snd, map_name_zip h, SourceFunction.unknownNames, List.filter_map, List.map_map]
  rfl

theorem shortDescriptionWarnings_eq {directive : Directive} (hpath : d.path = directive.sequence)
    (hdescription : d.description = directive.description) :
    shortDescriptionWarnings d.label directive = if d.path ≠ [] ∧ d.description = none then
      [⟨.missingShortDescription, d.label, "subcommand has no short description"⟩] else [] := by
  rw [shortDescriptionWarnings, ← hpath, ← hdescription]
  simp

/-- A parameter of a declaration is made of what is documented about its name, if no parameter in front of it
has the name, and of the comments beside it. -/
theorem finishes_of_extractCommand {directive : Directive} {style : List Warning}
    (h : source.extractCommand f directive style = .ok extraction) (hd : d ∈ extraction.declarations)
    {i : Nat} {p : SourceParam} (hp : f.parameters[i]? = some p) :
    d.Finishes i (Candidate.merge (candidates
      (if p.name ∈ (f.parameters.take i).map (·.name) then none else Ordered.find? p.name directive.params)
      p)) := by
  obtain ⟨-, -, hsignature, hparameters⟩ := SourceUnit.extractCommand_eq_ok h hd
  obtain ⟨typed, htyped, hname⟩ := exists_getElem?_of_forall₂ (mapM_eq_ok_iff.mp hsignature) hp
  have hpair : (f.parameters.zip d.binding.parameters)[i]? = some (p, typed) :=
    List.getElem?_zip_eq_some.mpr ⟨hp, htyped⟩
  have hfinished := getElem?_finishParameters directive.params hpair
  have hbefore : ((f.parameters.zip d.binding.parameters).take i).map (·.2.name)
      = (f.parameters.take i).map (·.name) := by
    rw [List.map_take, map_name_zip hsignature, List.map_take]
  rw [hbefore, SourceParam.typed_name hname] at hfinished
  obtain ⟨q, hq, hfilled⟩ :=
    exists_getElem?_of_forall₂ (forall₂_filledIn_of_assignPositions hparameters) hfinished
  exact ⟨typed, q, htyped, hq, hfilled⟩

/-- Whatever declares a command is accounted for: its warnings are those of the layout of its comment, of
documented names that are not in the signature, and of descriptions that are missing; and what is documented
about a name of the signature goes to the first parameter of that name, over all other comments, and to no
other. -/
theorem accountsFor_extractFunction (h : source.extractFunction f = .ok extraction)
    (hd : d ∈ extraction.declarations) : f.AccountsFor extraction d := by
  obtain ⟨-, hcommand⟩ := SourceUnit.extractCommand_of_extractFunction h hd
  obtain ⟨-, hpath, hsignature, -⟩ := SourceUnit.extractCommand_eq_ok hcommand hd
  obtain ⟨hdescription, hwarnings⟩ := SourceUnit.warnings_of_extractCommand hcommand hd
  have hascending := pairwise_map_fst_params f.name f.doc
  refine ⟨hascending, ?_, ?_, ?_⟩
  · rw [hwarnings, descriptionWarnings_eq, unknownParameterWarnings_eq hsignature,
      shortDescriptionWarnings_eq hpath hdescription]
  · intro i p c hp hfirst hmem
    have hfinishes := finishes_of_extractCommand hcommand hd hp
    have hnodup : ((readComment f.name f.doc).1.params.map Prod.fst).Nodup := by
      refine hascending.imp ?_
      rintro name _ hlt rfl
      exact String.lt_irrefl name hlt
    have hfound := Ordered.find?_eq_some_of_mem hnodup hmem
    rw [if_neg hfirst, hfound, Candidate.merge_candidates_some] at hfinishes
    exact hfinishes
  · intro i p hp hnone
    have hfinishes := finishes_of_extractCommand hcommand hd hp
    rcases hnone with hlater | hunknown
    · rw [if_pos hlater] at hfinishes
      exact hfinishes
    · rw [Ordered.find?_eq_none hunknown, ite_self] at hfinishes
      exact hfinishes

end

/-- A function whose comment documents a name that is not in the signature, and one that is there twice. -/
def lookupFunction : SourceFunction where
  name := "Get"
  doc := "Get is a subcommand \x60app get\x60\nFlags:\n\n\tkey: -k the key\n\tghost: -g not real"
  parameters :=
    [{ name := "limit", typeText := "int" }, { name := "key", typeText := "string" },
      { name := "key", typeText := "string", inlineComment := some "// -x" }]

/-- The first parameter of the name takes what is documented, and the other one is reported. -/
theorem accountsFor_extractFunction_lookup :
    ∃ extraction, SourceUnit.extractFunction ⟨"example.com/app", "get.go", [lookupFunction]⟩ lookupFunction
        = .ok extraction ∧
      ∃ d ∈ extraction.declarations, lookupFunction.unknownNames = ["ghost"] ∧
        d.undescribed = ["limit", "key"] ∧ d.parameters.map (·.flags) = [[], ["k"], ["x"]] ∧
          extraction.warnings.map (·.kind) = [.unknownParameter, .missingShortDescription,
            .missingParameterDescription, .missingParameterDescription] ∧
            lookupFunction.AccountsFor extraction d := by
  have hok : (SourceUnit.extractFunction ⟨"example.com/app", "get.go", [lookupFunction]⟩ lookupFunction).map
      (fun extraction => decide (∃ d ∈ extraction.declarations, lookupFunction.unknownNames = ["ghost"] ∧
        d.undescribed = ["limit", "key"] ∧ d.parameters.map (·.flags) = [[], ["k"], ["x"]] ∧
          extraction.warnings.map (·.kind) = [.unknownParameter, .missingShortDescription,
            .missingParameterDescription, .missingParameterDescription])) = .ok true := by
    decide +kernel
  obtain ⟨extraction, hextract, hshape⟩ := map_eq_ok_iff.mp hok
  obtain ⟨d, hd, hunknown, hundescribed, hflags, hkinds⟩ := of_decide_eq_true hshape
  exact ⟨extraction, hextract, d, hd, hunknown, hundescribed, hflags, hkinds,
    accountsFor_extractFunction hextract hd⟩

end CommandDoc
