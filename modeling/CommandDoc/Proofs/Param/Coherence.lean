import CommandDoc.Param.Description
import CommandDoc.Proofs.Comment.Directive
import CommandDoc.Proofs.Name.Flag
import CommandDoc.Proofs.Param.Attributes
import CommandDoc.Proofs.Text.Occurrence

/-!
# Candidates in which the fields fit together

Position and repetition of a parameter are spread over several fields, and its flags over two.  Every text
gives a candidate in which they fit together, and laying candidates over each other keeps it so.

Main definitions:

- `Candidate.IsCoherent`: the fields of a candidate fit together.

Main results:

- Theorem `Candidate.IsCoherent.overlay` and `Candidate.isCoherent_merge`: laying candidates over each other.
- Theorem `Candidate.isCoherent_ofChars`: every text gives a coherent candidate.
- Theorem `Directive.isCoherent_of_mem_params`: so does every comment for each of its parameters.
-/

namespace CommandDoc

open Text

/-- The fields of a candidate fit together: what has a position is an argument and its position is not zero,
there are bounds only for what is repeated, and no name holds a blank. -/
structure Candidate.IsCoherent (c : Candidate) : Prop where
  /-- What has a position is an argument. -/
  positional : c.position ≠ none → c.positional = true
  /-- No position is zero. -/
  position_ne_zero : c.position ≠ some 0
  /-- There are bounds only for what is repeated. -/
  bounds : c.vararg = false → c.varMin = 0 ∧ c.varMax = 0
  /-- No flag holds a blank. -/
  flags : ∀ flag ∈ c.flags, IsUnspaced flag
  /-- No alias holds a blank. -/
  aliases : ∀ name ∈ c.aliases, IsUnspaced name

namespace Candidate

/-! ## Laying candidates over each other -/

/-- The empty candidate is coherent. -/
theorem isCoherent_empty : IsCoherent {} where
  positional := fun h => absurd rfl h
  position_ne_zero := by simp
  bounds := fun _ => ⟨rfl, rfl⟩
  flags := by simp
  aliases := by simp

/-- A list laid over another is one of the two. -/
theorem mem_overList {α : Type} {base top : List α} {x : α} (h : x ∈ overList base top) :
    x ∈ base ∨ x ∈ top := by
  by_cases hempty : top.isEmpty = true
  · exact Or.inl (by simpa [overList, hempty] using h)
  · exact Or.inr (by simpa [overList, hempty] using h)

/-- Laying one coherent candidate over another gives a coherent one. -/
theorem IsCoherent.overlay {base top : Candidate} (hbase : base.IsCoherent) (htop : top.IsCoherent) :
    (overlay base top).IsCoherent where
  positional := by
    intro h
    simp only [Candidate.overlay, ne_eq, Option.or_eq_none_iff, not_and_or] at h ⊢
    rcases h with h | h
    · rw [htop.positional h, Bool.true_or]
    · rw [hbase.positional h, Bool.or_true]
  position_ne_zero := by
    intro h
    rcases Option.or_eq_some_iff.mp h with h | ⟨-, h⟩
    · exact htop.position_ne_zero h
    · exact hbase.position_ne_zero h
  bounds := by
    intro h
    rcases Bool.or_eq_false_iff.mp h with ⟨hover, hunder⟩
    simp [Candidate.overlay, htop.bounds hover, hbase.bounds hunder]
  flags := fun flag h => (mem_overList h).elim (hbase.flags flag) (htop.flags flag)
  aliases := fun name h => (mem_overList h).elim (hbase.aliases name) (htop.aliases name)

/-- So does laying any number of them. -/
theorem isCoherent_foldl_overlay {base : Candidate} (hbase : base.IsCoherent) {found : List Candidate}
    (h : ∀ c ∈ found, c.IsCoherent) : (found.foldl Candidate.overlay base).IsCoherent := by
  induction found generalizing base with
  | nil => exact hbase
  | cons c found ih =>
    exact ih (hbase.overlay (h c List.mem_cons_self)) fun d hd => h d (List.mem_cons_of_mem _ hd)

/-- Merging coherent candidates gives a coherent one. -/
theorem isCoherent_merge {found : List (CandidateSource × Candidate)}
    (h : ∀ entry ∈ found, entry.2.IsCoherent) : (merge found).IsCoherent := by
  have hsource : ∀ source, ∀ c ∈ ofSource source found, c.IsCoherent := by
    intro source c hc
    rcases List.mem_map.mp hc with ⟨entry, hentry, rfl⟩
    exact h entry (List.mem_filter.mp hentry).1
  apply isCoherent_foldl_overlay isCoherent_empty
  intro c hc
  rcases List.mem_append.mp hc with hc | hc
  · rcases List.mem_append.mp hc with hc | hc
    · exact hsource _ c hc
    · exact hsource _ c hc
  · exact hsource _ c hc

end Candidate

/-! ## Attributes -/

namespace Attribute

/-- The names that an attribute gives. -/
def givenNames : Attribute → List String
  | aka names => names
  | word names => names
  | _ => []

/-- An alias has no blank in it. -/
theorem isUnspaced_of_mem_aliasNames {cs : List Char} {name : String} (h : name ∈ aliasNames cs) :
    IsUnspaced name := by
  rcases List.mem_map.mp h with ⟨letters, hletters, rfl⟩
  rcases List.mem_map.mp (List.mem_filter.mp hletters).1 with ⟨word, hword, rfl⟩
  intro c hc
  rw [String.toList_ofList] at hc
  exact not_isBlank_of_mem_words hword ((List.dropWhile_sublist _).subset hc)

/-- The names that an attribute gives are the alias names of some text, which is empty if it gives none. -/
theorem ReadsAs.exists_givenNames_eq {entry : List Char} {found : Attribute} (h : ReadsAs entry found) :
    ∃ cs, found.givenNames = aliasNames cs := by
  cases h with
  | aka h => exact ⟨_, rfl⟩
  | word => exact ⟨entry, rfl⟩
  | _ => exact ⟨[], rfl⟩

/-- No name that an attribute gives holds a blank. -/
theorem isUnspaced_of_mem_givenNames {entry : List Char} {name : String}
    (h : name ∈ (ofEntry entry).givenNames) : IsUnspaced name := by
  obtain ⟨cs, hcs⟩ := (readsAs_ofEntry entry).exists_givenNames_eq
  rw [hcs] at h
  exact isUnspaced_of_mem_aliasNames h

/-- An attribute changes nothing that has to fit together but the aliases. -/
theorem isCoherent_apply {c : Candidate} (hc : c.IsCoherent) {found : Attribute}
    (h : ∀ name ∈ found.givenNames, IsUnspaced name) (pending : Pending) :
    (found.apply c pending).1.IsCoherent := by
  have hmore : ∀ names, (∀ name ∈ names, IsUnspaced name) →
      { c with aliases := c.aliases ++ names }.IsCoherent := by
    intro names hnames
    refine ⟨hc.positional, hc.position_ne_zero, hc.bounds, hc.flags, ?_⟩
    intro name hname
    exact (List.mem_append.mp hname).elim (hc.aliases name) (hnames name)
  cases found with
  | aka names => exact hmore names h
  | word names =>
    cases pending with
    | names => exact hmore names h
    | _ => exact hc
  | fallback value =>
    cases pending with
    | variableName => exact ⟨hc.positional, hc.position_ne_zero, hc.bounds, hc.flags, hc.aliases⟩
    | _ => exact hc
  | environment variableName behind =>
    cases behind with
    | none => exact ⟨hc.positional, hc.position_ne_zero, hc.bounds, hc.flags, hc.aliases⟩
    | some value => exact ⟨hc.positional, hc.position_ne_zero, hc.bounds, hc.flags, hc.aliases⟩
  | _ => exact ⟨hc.positional, hc.position_ne_zero, hc.bounds, hc.flags, hc.aliases⟩

/-- Applying the attributes of a block keeps a candidate coherent. -/
theorem isCoherent_applyAll {c : Candidate} (hc : c.IsCoherent) (entries : List (List Char))
    (pending : Pending) : (applyAll c pending (entries.map ofEntry)).IsCoherent := by
  induction entries generalizing c pending with
  | nil => exact hc
  | cons entry entries ih =>
    exact ih (isCoherent_apply hc (fun _ hname => isUnspaced_of_mem_givenNames hname) pending) _

end Attribute

/-! ## Texts -/

/-- The name of a flag has no blank in it. -/
theorem Marker.isUnspaced_of_flagName? {cs name : List Char} (h : Marker.flagName? cs = some name) :
    ∀ c ∈ name, isBlank c = false := by
  cases cs with
  | nil => cases h
  | cons c cs =>
    rw [Marker.flagName?] at h
    split at h
    · next hc =>
      cases h
      intro d hd
      rcases List.mem_cons.mp hd with rfl | hd
      · exact isBlank_eq_false_of_isAlphanum hc
      · have hclass := List.mem_takeWhile_imp hd
        rcases Bool.or_eq_true_iff.mp hclass with hword | hdash
        · exact isBlank_eq_false_of_isWordChar hword
        · rw [beq_iff_eq.mp hdash]
          decide
    · cases h

/-- Nor has a name read behind dashes. -/
theorem Marker.isUnspaced_of_dashedName {cs name : List Char} {length : Nat}
    (h : Marker.dashedName cs = some (name, length)) : ∀ c ∈ name, isBlank c = false := by
  unfold Marker.dashedName at h
  split at h
  · rcases Option.map_eq_some_iff.mp h with ⟨read, hread, heq⟩
    cases heq
    exact Marker.isUnspaced_of_flagName? hread
  · rcases Option.map_eq_some_iff.mp h with ⟨read, hread, heq⟩
    cases heq
    exact Marker.isUnspaced_of_flagName? hread
  · cases h

/-- Nor has the name of a flag found in a text. -/
theorem Marker.isUnspaced_of_flag {before : Option Char} {cs name : List Char} {lead : Option Char}
    {length : Nat} (h : Marker.flag before cs = some ((lead, name), length)) :
    ∀ c ∈ name, isBlank c = false := by
  unfold Marker.flag at h
  split at h
  · next found hfound =>
    cases h
    split at hfound
    · exact Marker.isUnspaced_of_dashedName hfound
    · cases hfound
  · split at h
    · split at h
      · rcases Option.map_eq_some_iff.mp h with ⟨⟨read, taken⟩, hread, heq⟩
        cases heq
        exact Marker.isUnspaced_of_dashedName hread
      · cases h
    · cases h

namespace Candidate

/-- Reading a default keeps a candidate coherent. -/
theorem IsCoherent.withDefault {c : Candidate} (h : c.IsCoherent) (cs : List Char) :
    (c.withDefault cs).1.IsCoherent := by
  unfold Candidate.withDefault
  split
  · exact ⟨h.positional, h.position_ne_zero, h.bounds, h.flags, h.aliases⟩
  · exact h

/-- Reading a position keeps a candidate coherent. -/
theorem IsCoherent.withPosition {c : Candidate} (h : c.IsCoherent) (cs : List Char) :
    (c.withPosition cs).IsCoherent := by
  unfold Candidate.withPosition
  split
  · next n _ =>
    by_cases hn : n = 0
    · simpa [hn] using h
    · rw [if_neg (by simpa using hn)]
      exact ⟨fun _ => rfl, by simpa using hn, h.bounds, h.flags, h.aliases⟩
  · exact h

/-- Reading a repetition keeps a candidate coherent. -/
theorem IsCoherent.withRepetition {c : Candidate} (h : c.IsCoherent) (cs : List Char) :
    (c.withRepetition cs).IsCoherent := by
  unfold Candidate.withRepetition
  split
  · exact ⟨fun _ => rfl, h.position_ne_zero, by simp, h.flags, h.aliases⟩
  · exact h

/-- Reading the flags keeps a candidate coherent. -/
theorem IsCoherent.withFlags {c : Candidate} (h : c.IsCoherent) (cs : List Char) :
    (c.withFlags cs).IsCoherent where
  positional := h.positional
  position_ne_zero := h.position_ne_zero
  bounds := h.bounds
  flags := by
    intro flag hflag
    rcases List.mem_append.mp hflag with hflag | hflag
    · exact h.flags flag hflag
    · rcases List.mem_map.mp hflag with ⟨⟨lead, name⟩, hfound, rfl⟩
      have hread : ∀ found ∈ allFound Marker.flag cs, ∀ c ∈ found.2, isBlank c = false :=
        forall_mem_allFound (fun _ _ _ _ => Marker.isUnspaced_of_flag) cs
      intro d hd
      exact hread _ hfound d (by simpa using hd)
  aliases := h.aliases

/-- Reading the text of a parameter keeps a candidate coherent. -/
theorem IsCoherent.readInline {c : Candidate} (h : c.IsCoherent) (cs : List Char) :
    (c.readInline cs).IsCoherent := by
  unfold Candidate.readInline
  have hread := ((((h.withDefault cs).withPosition (c.withDefault cs).2).withRepetition
    (replaceEach Marker.position (fun _ => [' ']) (c.withDefault cs).2)).withFlags
      (replaceEach Marker.repetition (fun _ => [' '])
        (replaceEach Marker.position (fun _ => [' ']) (c.withDefault cs).2)))
  exact ⟨hread.positional, hread.position_ne_zero, hread.bounds,
    fun flag hflag => isUnspaced_of_mem_canonicalFlags hread.flags hflag, hread.aliases⟩

/-- Every text gives a coherent candidate. -/
theorem isCoherent_ofChars (cs : List Char) : (ofChars cs).IsCoherent := by
  unfold ofChars
  split
  · exact (Attribute.isCoherent_applyAll isCoherent_empty _ _).readInline _
  · exact isCoherent_empty.readInline _

end Candidate

/-! ## Comments -/

/-- What a comment says about each of its parameters is coherent. -/
theorem Directive.isCoherent_of_mem_params {forms : List LineForm} :
    ∀ entry ∈ (Directive.ofForms forms).params, entry.2.IsCoherent := by
  intro entry hentry
  rw [Directive.ofForms, Directive.paramEntries_eq, Directive.candidatesOf] at hentry
  rcases List.mem_map.mp hentry with ⟨name, -, rfl⟩
  apply Candidate.isCoherent_foldl_overlay Candidate.isCoherent_empty
  intro c hc
  rcases List.mem_map.mp hc with ⟨other, -, rfl⟩
  exact Candidate.isCoherent_ofChars _

end CommandDoc
