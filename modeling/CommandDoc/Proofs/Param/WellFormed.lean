import CommandDoc.Proofs.Param.Accumulation
import CommandDoc.Proofs.Param.Coherence
import CommandDoc.Proofs.Param.DefaultValue
import CommandDoc.Proofs.Text.Spacing

/-!
# Candidates read from a text

Whatever is written about a parameter, the candidate that is read from it is well formed.  Its description is what
the passes over the text have left, so each of them has to keep what the ones before it have tidied.

Main definitions:

- `IsTidyText`: what holds of a description.
- `Candidate.IsPlaced`: an argument has a position or takes any number of values.
- `Candidate.IsTidy`: what holds of a candidate read from a text.

Main results:

- Theorem `isTidyText_cleanDescription`: a description is tidy unless nothing is left of it.
- Theorem `Candidate.isTidy_ofText`: every text gives a tidy candidate.
-/

namespace CommandDoc

open Text

/-! ## Commas -/

/-- Two neighbours are not a space and the comma that closes up to it. -/
def NotSpaceComma (a b : Char) : Prop :=
  a = ' ' → b ≠ ','

/-- Closing up commas keeps the first character of a text that does not start with a space. -/
theorem head?_closeCommas {cs : List Char} (h : ∀ c ∈ cs.head?, c ≠ ' ') :
    (closeCommas cs).head? = cs.head? := by
  cases cs with
  | nil => rfl
  | cons c cs =>
    rw [closeCommas]
    · rfl
    · rintro rest rfl
      exact absurd rfl (h ' ' rfl)

/-- Behind a blank of a single spaced text stands something else, and no comma after the spaces in front of commas
are dropped. -/
theorem isSingleSpaced_closeCommas {cs : List Char} (h : IsSingleSpaced cs) :
    IsSingleSpaced (closeCommas cs) ∧ (closeCommas cs).IsChain NotSpaceComma := by
  suffices hchain : (closeCommas cs).IsChain
      fun a b => (isBlank a = false ∨ isBlank b = false) ∧ NotSpaceComma a b by
    refine ⟨⟨fun c hc => h.eq_space c ((closeCommas_sublist cs).subset hc), ?_⟩, ?_⟩
    · exact hchain.imp fun _ _ hab => hab.1
    · exact hchain.imp fun _ _ hab => hab.2
  fun_induction closeCommas cs with
  | case1 cs ih =>
    have hrest := h.of_isInfix ((List.suffix_cons ',' cs).trans (List.suffix_cons ' ' _)).isInfix
    rw [List.isChain_cons]
    exact ⟨fun _ _ => ⟨Or.inl (by decide), fun hcomma => absurd hcomma (by decide)⟩, ih hrest⟩
  | case2 c cs hnot ih =>
    rw [List.isChain_cons]
    refine ⟨fun d hd => ?_, ih (h.of_isInfix (List.suffix_cons c cs).isInfix)⟩
    by_cases hc : isBlank c = true
    · -- The space stays, so what stood behind it is neither a blank nor a comma, and stays as well.
      obtain rfl := h.eq_space c List.mem_cons_self hc
      have hbehind : ∀ b ∈ cs.head?, isBlank b = false := fun b hb =>
        ((List.isChain_cons.mp h.apart).1 b hb).resolve_left (by decide)
      rw [head?_closeCommas fun b hb => by rintro rfl; exact absurd (hbehind _ hb) (by decide)] at hd
      refine ⟨Or.inr (hbehind d hd), fun _ hcomma => ?_⟩
      obtain ⟨rest, rfl⟩ := List.head?_eq_some_iff.mp hd
      exact hnot rest rfl (by rw [hcomma])
    · refine ⟨Or.inl (by simpa using hc), fun hspace => ?_⟩
      rw [hspace] at hc
      exact absurd (by decide) hc
  | case3 => exact .nil

/-! ## Descriptions -/

/-- A text as it can describe a parameter. -/
structure IsTidyText (cs : List Char) : Prop where
  /-- It is not empty. -/
  ne_nil : cs ≠ []
  /-- Its words have one space between them. -/
  collapsed : collapse cs = cs
  /-- No space stands in front of a comma. -/
  closed : ¬ [' ', ','] <:+: cs
  /-- Neither a blank nor loose punctuation starts it. -/
  head : ∀ c ∈ cs.head?, isBlank c = false ∧ c ∉ [',', ';', ':', '|', '/', '-']
  /-- Neither a blank nor loose punctuation ends it. -/
  last : ∀ c ∈ cs.getLast?, isBlank c = false ∧ c ∉ [',', ';', '|', '/']

/-- Only blanks and these signs are debris in front. -/
theorem isLeadingDebris_eq_false_iff {c : Char} :
    isLeadingDebris c = false ↔ isBlank c = false ∧ c ∉ [',', ';', ':', '|', '/', '-'] := by
  simp [isLeadingDebris, and_assoc]

/-- Only blanks and these signs are debris behind. -/
theorem isTrailingDebris_eq_false_iff {c : Char} :
    isTrailingDebris c = false ↔ isBlank c = false ∧ c ∉ [',', ';', '|', '/'] := by
  simp [isTrailingDebris, and_assoc]

/-- A description is tidy unless nothing is left of it. -/
theorem isTidyText_cleanDescription {cs : List Char} (hne : cleanDescription cs ≠ []) :
    IsTidyText (cleanDescription cs) := by
  rw [cleanDescription, dropTail_eq_rdropWhile] at hne ⊢
  generalize replaceEach Marker.repeatedCommas (fun _ => [','])
    (replaceEach Marker.emptyBrackets (fun _ => [' ']) cs) = commas at hne ⊢
  obtain ⟨hspaced, hclosed⟩ := isSingleSpaced_closeCommas (isSingleSpaced_collapse commas)
  generalize closeCommas (collapse commas) = closed at hne hspaced hclosed ⊢
  -- Dropping at both ends leaves a part of the text.
  have hprefix := List.rdropWhile_prefix isTrailingDebris (closed.dropWhile isLeadingDebris)
  have hpart := hprefix.isInfix.trans (List.dropWhile_suffix isLeadingDebris (l := closed)).isInfix
  have hhead : ∀ c ∈ ((closed.dropWhile isLeadingDebris).rdropWhile isTrailingDebris).head?,
      isLeadingDebris c = false := by
    intro c hc
    have hstart := List.head?_dropWhile_not isLeadingDebris closed
    obtain ⟨rest, hrest⟩ := hprefix
    rw [← hrest, List.head?_append_of_ne_nil _ hne, hc] at hstart
    simpa using hstart
  have hlast : ∀ c ∈ ((closed.dropWhile isLeadingDebris).rdropWhile isTrailingDebris).getLast?,
      isTrailingDebris c = false := by
    intro c hc
    rw [List.getLast?_eq_some_getLast hne, Option.mem_some_iff] at hc
    simpa [hc] using List.rdropWhile_last_not isTrailingDebris (closed.dropWhile isLeadingDebris) hne
  generalize (closed.dropWhile isLeadingDebris).rdropWhile isTrailingDebris = left at *
  have hheadIff := fun c hc => isLeadingDebris_eq_false_iff.mp (hhead c hc)
  have hlastIff := fun c hc => isTrailingDebris_eq_false_iff.mp (hlast c hc)
  exact {
    ne_nil := hne
    collapsed := (hspaced.of_isInfix hpart).collapse_eq (fun c hc => (hheadIff c hc).1) fun c hc => (hlastIff c hc).1
    closed := fun hcomma => by
      have hpair := List.IsChain.infix hclosed (hcomma.trans hpart)
      rw [List.isChain_pair] at hpair
      exact hpair rfl rfl
    head := hheadIff
    last := hlastIff }

/-! ## Arguments -/

namespace Candidate

/-- An argument is what has a position or takes any number of values. -/
def IsPlaced (c : Candidate) : Prop :=
  c.positional = true ↔ c.position ≠ none ∨ c.vararg = true

/-- The empty candidate is no argument and has no position. -/
theorem isPlaced_empty : IsPlaced {} := by
  simp [IsPlaced]

/-- Reading a block keeps arguments apart from flags. -/
theorem IsPlaced.readAttributes {c : Candidate} (h : c.IsPlaced) (block : List Char) :
    (readAttributes block c).IsPlaced := by
  have hgrows := c.grows_readAttributes block
  rw [IsPlaced, hgrows.positional, hgrows.position, hgrows.vararg]
  exact h

/-- So does reading a default. -/
theorem IsPlaced.withDefault {c : Candidate} (h : c.IsPlaced) (cs : List Char) :
    (c.withDefault cs).1.IsPlaced := by
  rw [Candidate.withDefault]
  split
  · exact h
  · exact h

/-- So does reading a position. -/
theorem IsPlaced.withPosition {c : Candidate} (h : c.IsPlaced) (cs : List Char) :
    (c.withPosition cs).IsPlaced := by
  rw [Candidate.withPosition]
  split
  · split
    · exact h
    · simp [IsPlaced]
  · exact h

/-- So does reading a repetition. -/
theorem IsPlaced.withRepetition {c : Candidate} (h : c.IsPlaced) (cs : List Char) :
    (c.withRepetition cs).IsPlaced := by
  rw [Candidate.withRepetition]
  split
  · simp [IsPlaced]
  · exact h

/-- So does reading the whole text of a parameter. -/
theorem IsPlaced.readInline {c : Candidate} (h : c.IsPlaced) (cs : List Char) : (c.readInline cs).IsPlaced :=
  ((h.withDefault cs).withPosition _).withRepetition _

/-! ## What the last passes write -/

/-- The flags that are kept are the canonical ones of those that were read. -/
theorem IsCoherent.exists_flags_readInline {c : Candidate} (h : c.IsCoherent) (cs : List Char) :
    ∃ written : List String, (∀ flag ∈ written, IsUnspaced flag) ∧
      (c.readInline cs).flags = canonicalFlags written :=
  ⟨_, ((((h.withDefault cs).withPosition _).withRepetition _).withFlags _).flags, rfl⟩

/-- A position writes no description. -/
theorem description_withPosition (c : Candidate) (cs : List Char) :
    (c.withPosition cs).description = c.description := by
  rw [withPosition]
  split
  · split
    · rfl
    · rfl
  · rfl

/-- A repetition writes no description. -/
theorem description_withRepetition (c : Candidate) (cs : List Char) :
    (c.withRepetition cs).description = c.description := by
  rw [withRepetition]
  split
  · rfl
  · rfl

/-- A default writes no description. -/
theorem description_withDefault (c : Candidate) (cs : List Char) :
    (c.withDefault cs).1.description = c.description := by
  rw [withDefault]
  split
  · rfl
  · rfl

/-- The description is what remains of the text, unless there was one before. -/
theorem exists_description_readInline {c : Candidate} (h : c.description = none) (cs : List Char) :
    ∃ left : List Char, (c.readInline cs).description
      = if (cleanDescription left).isEmpty then none else some (String.ofList (cleanDescription left)) := by
  rw [readInline]
  dsimp only [withFlags]
  rw [description_withRepetition, description_withPosition, description_withDefault, h, Option.none_or]
  exact ⟨_, rfl⟩

/-- A description that is read from a text is tidy. -/
theorem isTidyText_of_description_readInline {c : Candidate} (h : c.description = none) {cs : List Char}
    {text : String} (htext : (c.readInline cs).description = some text) : IsTidyText text.toList := by
  obtain ⟨left, hleft⟩ := exists_description_readInline h cs
  rw [hleft] at htext
  split at htext
  · cases htext
  · next hempty =>
    cases htext
    rw [String.toList_ofList]
    exact isTidyText_cleanDescription (by simpa using hempty)

/-! ## Whole candidates -/

/-- What holds of a candidate read from a text. -/
structure IsTidy (c : Candidate) : Prop where
  /-- Positions count from 1 on. -/
  position : ∀ n, c.position = some n → 1 ≤ n
  /-- An argument is what has a position or takes any number of values. -/
  placed : c.positional = true ↔ c.position ≠ none ∨ c.vararg = true
  /-- There are bounds only for what takes any number of values. -/
  bounds : c.vararg = false → c.varMin = 0 ∧ c.varMax = 0
  /-- The flags are in canonical order. -/
  ordered : c.flags.Pairwise fun a b => b.length < a.length ∨ a.length = b.length ∧ a < b
  /-- Each flag can stand behind dashes and has no blank in it. -/
  flags : ∀ flag ∈ c.flags, IsBareName flag ∧ IsUnspaced flag
  /-- A description is tidy. -/
  description : ∀ text, c.description = some text → IsTidyText text.toList

/-- Reading the text of a parameter gives a tidy candidate. -/
theorem isTidy_readInline {c : Candidate} (hcoherent : c.IsCoherent) (hplaced : c.IsPlaced)
    (hdescription : c.description = none) (cs : List Char) : (c.readInline cs).IsTidy := by
  have hread := hcoherent.readInline cs
  obtain ⟨written, hwritten, hflags⟩ := hcoherent.exists_flags_readInline cs
  have hlist := isFlagList_canonicalFlags hwritten
  rw [← hflags] at hlist
  exact {
    position := by
      intro n hn
      have hne : n ≠ 0 := by
        rintro rfl
        exact hread.position_ne_zero hn
      rw [← UInt32.not_lt]
      simpa [UInt32.lt_iff_toNat_lt, ← UInt32.toNat_inj] using hne
    placed := hplaced.readInline cs
    bounds := hread.bounds
    ordered := hlist.ordered
    flags := fun flag hflag => ⟨hlist.bare flag hflag, hread.flags flag hflag⟩
    description := fun _ htext => isTidyText_of_description_readInline hdescription htext }

/-- Every text gives a tidy candidate. -/
theorem isTidy_ofText (text : String) : (ofText text).IsTidy := by
  rw [ofText, ofChars]
  split
  · next block hblock =>
    apply isTidy_readInline (Attribute.isCoherent_applyAll isCoherent_empty _ _)
    · exact isPlaced_empty.readAttributes _
    · exact readAttributes_description _ _
  · exact isTidy_readInline isCoherent_empty isPlaced_empty rfl _

example : ofText "-q ,, ( ) | first ,  then ; @0" = { flags := ["q"], description := some "first, then" } := by
  decide +kernel

end Candidate

end CommandDoc
