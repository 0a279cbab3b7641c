import CommandDoc.Proofs.Param.Coherence

/-!
# What a block of attributes leaves of a candidate

A block adds to a candidate and takes nothing away, with one exception: a reference is replaced by the last
one that the block gives for its field, also where that one is malformed.

Main definitions:

- `Candidate.Grows`: what an earlier block said is still there.
- `RefField`: the fields that hold a reference, and `RefField.refs`: what a block gives for them.

Main results:

- Theorem `Candidate.grows_readAttributes`: reading a block keeps everything but the references.
- Theorem `RefField.get_readAttributes`: the last reference of a block counts.
- Theorem `readAttributes_accumulates`: so a reference is lost exactly if the last one is malformed.
-/

namespace CommandDoc

open Text

/-! ## What is kept -/

/-- A candidate after more has been said about a parameter, apart from its references. -/
structure Candidate.Grows (before after : Candidate) : Prop where
  /-- The flags are the same. -/
  flags : after.flags = before.flags
  /-- The description is the same. -/
  description : after.description = before.description
  /-- An argument stays one, and a flag stays a flag. -/
  positional : after.positional = before.positional
  /-- The position is the same. -/
  position : after.position = before.position
  /-- The repetition is the same. -/
  vararg : after.vararg = before.vararg
  /-- The least number of arguments is the same. -/
  varMin : after.varMin = before.varMin
  /-- The greatest number of arguments is the same. -/
  varMax : after.varMax = before.varMax
  /-- What is required stays so. -/
  required : before.required = true → after.required = true
  /-- What is inherited stays so. -/
  inherited : before.inherited = true → after.inherited = true
  /-- What a command above declares stays so. -/
  fromParent : before.fromParent = true → after.fromParent = true
  /-- Further names come behind those that are there, and each can stand behind dashes. -/
  aliases : ∃ more, after.aliases = before.aliases ++ more ∧ ∀ name ∈ more, IsBareName name ∧ IsUnspaced name
  /-- A default value is not taken away. -/
  defaultValue : before.defaultValue ≠ none → after.defaultValue ≠ none
  /-- An environment variable is not taken away. -/
  envVar : before.envVar ≠ none → after.envVar ≠ none

namespace Candidate.Grows

theorem refl (c : Candidate) : c.Grows c where
  flags := rfl
  description := rfl
  positional := rfl
  position := rfl
  vararg := rfl
  varMin := rfl
  varMax := rfl
  required := id
  inherited := id
  fromParent := id
  aliases := ⟨[], by simp⟩
  defaultValue := id
  envVar := id

theorem trans {a b c : Candidate} (hab : a.Grows b) (hbc : b.Grows c) : a.Grows c where
  flags := hbc.flags.trans hab.flags
  description := hbc.description.trans hab.description
  positional := hbc.positional.trans hab.positional
  position := hbc.position.trans hab.position
  vararg := hbc.vararg.trans hab.vararg
  varMin := hbc.varMin.trans hab.varMin
  varMax := hbc.varMax.trans hab.varMax
  required := hbc.required ∘ hab.required
  inherited := hbc.inherited ∘ hab.inherited
  fromParent := hbc.fromParent ∘ hab.fromParent
  aliases := by
    obtain ⟨first, hfirst, hfirstNames⟩ := hab.aliases
    obtain ⟨second, hsecond, hsecondNames⟩ := hbc.aliases
    refine ⟨first ++ second, by rw [hsecond, hfirst, List.append_assoc], ?_⟩
    exact List.forall_mem_append.mpr ⟨hfirstNames, hsecondNames⟩
  defaultValue := hbc.defaultValue ∘ hab.defaultValue
  envVar := hbc.envVar ∘ hab.envVar

end Candidate.Grows

namespace Attribute

/-- A further name of a flag can stand behind dashes. -/
theorem isBareName_of_mem_aliasNames {cs : List Char} {name : String} (h : name ∈ aliasNames cs) :
    IsBareName name := by
  have hunspaced := isUnspaced_of_mem_aliasNames h
  rcases List.mem_map.mp h with ⟨letters, hletters, rfl⟩
  rcases List.mem_filter.mp hletters with ⟨hbare, hne⟩
  rcases List.mem_map.mp hbare with ⟨word, -, rfl⟩
  cases hword : word.dropWhile (· == '-') with
  | nil => simp [hword] at hne
  | cons c rest =>
    rw [hword] at hunspaced
    have hhead := List.head?_dropWhile_not (· == '-') word
    rw [hword] at hhead
    exact ⟨c, by simp, by simpa using hhead, hunspaced c (by simp)⟩

/-- One attribute adds to a candidate. -/
theorem grows_apply {found : Attribute} (h : ∀ name ∈ found.givenNames, IsBareName name ∧ IsUnspaced name)
    (c : Candidate) (pending : Pending) : c.Grows (found.apply c pending).1 := by
  have hmore : ∀ names, (∀ name ∈ names, IsBareName name ∧ IsUnspaced name) →
      c.Grows { c with aliases := c.aliases ++ names } :=
    fun names hnames => { Candidate.Grows.refl c with aliases := ⟨names, rfl, hnames⟩ }
  have hdefault : ∀ value, c.Grows { c with defaultValue := some value } :=
    fun value => { Candidate.Grows.refl c with defaultValue := fun _ => Option.some_ne_none value }
  cases found with
  | required => exact { Candidate.Grows.refl c with required := fun _ => rfl }
  | inherited => exact { Candidate.Grows.refl c with inherited := fun _ => rfl }
  | fromParent => exact { Candidate.Grows.refl c with fromParent := fun _ => rfl }
  | parser ref => exact { Candidate.Grows.refl c with }
  | generator ref => exact { Candidate.Grows.refl c with }
  | aka names => exact hmore names h
  | environment variableName behind =>
    cases behind with
    | none => exact { Candidate.Grows.refl c with envVar := fun _ => Option.some_ne_none variableName }
    | some value =>
      exact { hdefault value with envVar := fun _ => Option.some_ne_none variableName }
  | defaultValue value => exact hdefault value
  | fallback value =>
    cases pending with
    | variableName => exact hdefault value
    | nothing => exact Candidate.Grows.refl c
    | names => exact Candidate.Grows.refl c
  | word names =>
    cases pending with
    | names => exact hmore names h
    | nothing => exact Candidate.Grows.refl c
    | variableName => exact Candidate.Grows.refl c
  | other => exact Candidate.Grows.refl c

theorem grows_applyAll (entries : List (List Char)) (c : Candidate) (pending : Pending) :
    c.Grows (applyAll c pending (entries.map ofEntry)) := by
  induction entries generalizing c pending with
  | nil => exact Candidate.Grows.refl c
  | cons entry entries ih =>
    have hnames : ∀ name ∈ (ofEntry entry).givenNames, IsBareName name ∧ IsUnspaced name := by
      intro name hname
      obtain ⟨cs, hcs⟩ := (readsAs_ofEntry entry).exists_givenNames_eq
      rw [hcs] at hname
      exact ⟨isBareName_of_mem_aliasNames hname, isUnspaced_of_mem_aliasNames hname⟩
    exact (grows_apply hnames c pending).trans (ih _ _)

end Attribute

/-- Reading a block takes nothing away from a candidate, apart from its references. -/
theorem Candidate.grows_readAttributes (block : List Char) (c : Candidate) :
    c.Grows (readAttributes block c) :=
  Attribute.grows_applyAll _ c _

/-! ## Keywords exclude each other -/

namespace Attribute

/-- An entry with a keyword starts with it, apart from case. -/
theorem isPrefix_of_keywordValue? {keyword : String} {entry value : List Char}
    (h : keywordValue? keyword entry = some value) : keyword.toList <+: asciiLower entry := by
  obtain ⟨behind, hbehind, -⟩ := Option.map_eq_some_iff.mp h
  obtain ⟨xs, rfl, hxs⟩ := afterWord?_eq_some_iff.mp hbehind
  rw [asciiLower, List.map_append, hxs]
  exact List.prefix_append _ _

theorem isPrefix_of_isFromParent {entry : List Char} (h : isFromParent entry = true) :
    ['f'] <+: asciiLower entry := by
  rw [isFromParent] at h
  split at h
  · exact absurd h Bool.false_ne_true
  · next rest hrest =>
    obtain ⟨xs, rfl, hxs⟩ := afterWord?_eq_some_iff.mp hrest
    cases xs with
    | nil => exact absurd hxs (by decide)
    | cons c xs =>
      have hc : foldLetter c = 'f' := (List.cons.inj hxs).1
      rw [asciiLower, List.cons_append, List.map_cons, List.cons_prefix_cons]
      exact ⟨(toLower_of_foldLetter_eq (by decide) (by decide) hc).symm, List.nil_prefix⟩

/-- An entry has one of two keywords only, unless one of them is the start of the other. -/
theorem keywordValue?_eq_none_of_apart {keyword other : String} {entry value : List Char}
    (h : keywordValue? keyword entry = some value)
    (hapart : ¬ keyword.toList <+: other.toList ∧ ¬ other.toList <+: keyword.toList) :
    keywordValue? other entry = none := by
  rw [Option.eq_none_iff_forall_not_mem]
  intro found hfound
  have hother := isPrefix_of_keywordValue? hfound
  exact (List.prefix_or_prefix_of_prefix (isPrefix_of_keywordValue? h) hother).elim hapart.1 hapart.2

end Attribute

/-! ## References -/

/-- The fields of a candidate that hold a reference to a function. -/
inductive RefField where
  /-- The function that reads the value. -/
  | parser
  /-- The function that makes a value. -/
  | generator
  deriving DecidableEq

namespace RefField

/-- The keyword of an entry that gives a reference. -/
def keyword : RefField → String
  | parser => "parser:"
  | generator => "generator:"

/-- The reference that a candidate holds. -/
def get : RefField → Candidate → Option FunctionRef
  | parser, c => c.parser
  | generator, c => c.generator

/-- The references that the entries of a block give for a field, in their order; a malformed one is `none`. -/
def refs (field : RefField) (block : List Char) : List (Option FunctionRef) :=
  (Attribute.entries block).filterMap fun entry =>
    (Attribute.keywordValue? field.keyword entry).map FunctionRef.ofChars?

/-- The attribute that gives a reference for a field. -/
def toAttribute : RefField → Option FunctionRef → Attribute
  | parser => .parser
  | generator => .generator

/-- The reference that an attribute gives for a field. -/
def given? : RefField → Attribute → Option (Option FunctionRef)
  | parser, .parser ref => some ref
  | generator, .generator ref => some ref
  | _, _ => none

/-! ## Reading references -/

/-- An entry with the keyword of a field gives a reference for it. -/
theorem ofEntry_of_keywordValue? {field : RefField} {entry value : List Char}
    (h : Attribute.keywordValue? field.keyword entry = some value) :
    Attribute.ofEntry entry = field.toAttribute (FunctionRef.ofChars? value) := by
  have hprefix := Attribute.isPrefix_of_keywordValue? h
  have hword : ∀ word : String, ¬ field.keyword.toList <+: word.toList →
      (asciiLower entry == word.toList) = false := by
    intro word hword
    rw [beq_eq_false_iff_ne]
    exact fun heq => hword (heq ▸ hprefix)
  have hparent : Attribute.isFromParent entry = false := by
    rw [← Bool.not_eq_true]
    intro hparent
    have hlength : ['f'].length ≤ field.keyword.toList.length := by cases field <;> decide
    have hfirst : ['f'] <+: field.keyword.toList :=
      List.prefix_of_prefix_length_le (Attribute.isPrefix_of_isFromParent hparent) hprefix hlength
    cases field <;> exact absurd hfirst (by decide)
  have hinherited : (asciiLower entry == "global".toList || asciiLower entry == "inherited".toList) = false := by
    rw [hword _ (by cases field <;> decide), hword _ (by cases field <;> decide), Bool.false_or]
  refine Attribute.ofEntry_of_keyword? (hword _ (by cases field <;> decide)) hinherited hparent ?_
  cases field with
  | parser =>
    have hparser : Attribute.keywordValue? "parser:" entry = some value := h
    rw [Attribute.keyword?, hparser]
    rfl
  | generator =>
    have hgenerator : Attribute.keywordValue? "generator:" entry = some value := h
    have hparser : Attribute.keywordValue? "parser:" entry = none :=
      Attribute.keywordValue?_eq_none_of_apart hgenerator (by decide)
    rw [Attribute.keyword?, hparser, hgenerator]
    rfl

/-- An entry gives a reference for a field exactly if it has the keyword of the field. -/
theorem given?_ofEntry (field : RefField) (entry : List Char) :
    field.given? (Attribute.ofEntry entry)
      = (Attribute.keywordValue? field.keyword entry).map FunctionRef.ofChars? := by
  cases hvalue : Attribute.keywordValue? field.keyword entry with
  | some value =>
    rw [ofEntry_of_keywordValue? hvalue]
    cases field <;> rfl
  | none =>
    have hreads := Attribute.readsAs_ofEntry entry
    generalize Attribute.ofEntry entry = found at hreads
    cases hreads with
    | parser h =>
      cases field with
      | parser => exact absurd (hvalue.symm.trans h) (Option.some_ne_none _).symm
      | generator => rfl
    | generator h =>
      cases field with
      | parser => rfl
      | generator => exact absurd (hvalue.symm.trans h) (Option.some_ne_none _).symm
    | _ => cases field <;> rfl

/-! ## Laying references into a candidate -/

/-- One attribute replaces the reference if it gives one. -/
theorem get_apply (field : RefField) (found : Attribute) (c : Candidate) (pending : Attribute.Pending) :
    field.get (found.apply c pending).1 = (field.given? found).getD (field.get c) := by
  cases found with
  | environment variableName behind => cases behind <;> cases field <;> rfl
  | fallback value => cases pending <;> cases field <;> rfl
  | word names => cases pending <;> cases field <;> rfl
  | _ => cases field <;> rfl

/-- Of several references the last one counts. -/
theorem get_applyAll (field : RefField) (attributes : List Attribute) (c : Candidate)
    (pending : Attribute.Pending) :
    field.get (Attribute.applyAll c pending attributes)
      = (attributes.filterMap field.given?).getLast?.getD (field.get c) := by
  induction attributes generalizing c pending with
  | nil => rfl
  | cons found attributes ih =>
    rw [Attribute.applyAll, ih, get_apply, List.filterMap_cons]
    cases field.given? found with
    | none => rfl
    | some ref => rw [List.getLast?_cons, Option.getD_some, Option.getD_some]

/-- After a block a candidate holds the last reference of the block, or the one it had if there is none. -/
theorem get_readAttributes (field : RefField) (block : List Char) (c : Candidate) :
    field.get (readAttributes block c) = (field.refs block).getLast?.getD (field.get c) := by
  rw [readAttributes, get_applyAll, List.filterMap_map, refs]
  simp only [Function.comp_def, given?_ofEntry]

/-- So it holds none exactly if the last one in the block is malformed, or if there never was one. -/
theorem get_readAttributes_eq_none_iff (field : RefField) (block : List Char) (c : Candidate) :
    field.get (readAttributes block c) = none ↔
      (field.refs block).getLast? = some none ∨ field.refs block = [] ∧ field.get c = none := by
  rw [get_readAttributes]
  cases hlast : (field.refs block).getLast? with
  | none => simp [List.getLast?_eq_none_iff.mp hlast]
  | some ref =>
    have hne : field.refs block ≠ [] := by
      intro hnil
      simp [hnil] at hlast
    simp [hne]

end RefField

/-! ## Accumulation -/

/-- A block unsets nothing that was said before, except for references: what a candidate holds for one of their
fields is the last reference of the block if it gives any, so it is lost exactly if that one is malformed. -/
theorem readAttributes_accumulates (block : List Char) (c : Candidate) :
    c.Grows (readAttributes block c) ∧
      ∀ field : RefField,
        field.get (readAttributes block c) = (field.refs block).getLast?.getD (field.get c) ∧
          (field.get (readAttributes block c) = none ↔
            (field.refs block).getLast? = some none ∨ field.refs block = [] ∧ field.get c = none) :=
  ⟨c.grows_readAttributes block, fun field =>
    ⟨field.get_readAttributes block c, field.get_readAttributes_eq_none_iff block c⟩⟩

/-- A reference without a name behind its dot takes away the parser that was there. -/
theorem readAttributes_accumulates_withoutName :
    let c : Candidate := { required := true, parser := some ⟨none, none, "Parse"⟩ }
    (readAttributes "parser: pkg.".toList c).required = true ∧
      (readAttributes "parser: pkg.".toList c).parser = none := by
  intro c
  obtain ⟨hgrows, hfields⟩ := readAttributes_accumulates "parser: pkg.".toList c
  exact ⟨hgrows.required rfl, (hfields .parser).2.mpr (Or.inl (by decide +kernel))⟩

end CommandDoc
