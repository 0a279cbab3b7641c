import CommandDoc.Proofs.Param.DefaultValue
import CommandDoc.Proofs.Param.MarkerWords

/-!
# Markers of arguments that are lost

The attribute block and the default value of a text are taken out before its markers are read.  What stands in
one of them is no marker of the parameter, and a position of zero, or one that is too large, is no position.
Whenever a text holds a marker in any other way, its parameter is an argument.

Main definitions:

- `AttributeBlock.outside` and `InlineDefault.outside`: what remains of a text.
- `Candidate.LosesMarkers`: the ways in which the markers of a text are lost.

Main results:

- Theorem `AttributeBlock.hasArgumentMarker_or`: a marker stands in the block or outside of it.
- Theorem `InlineDefault.hasArgumentMarker_or`: so it is for the default value.
- Theorem `Candidate.ofChars_positional_iff`: a text with a marker makes an argument unless its markers are lost.
-/

namespace CommandDoc

open Text Marker

/-! ## The attribute block -/

namespace AttributeBlock

/-- The text outside the block, or all of it without blanks around it. -/
def outside (cs : List Char) : List Char :=
  match ofText? cs with
  | some block => block.remainder
  | none => trim cs

/-- A marker of a text stands in its block or outside of it. -/
theorem hasArgumentMarker_or {cs : List Char} {block : AttributeBlock} (h : ofText? cs = some block)
    (hmarker : hasArgumentMarker cs = true) :
    hasArgumentMarker block.content = true ∨ hasArgumentMarker block.remainder = true := by
  rw [← hasArgumentMarker_trim] at hmarker
  rcases Option.or_eq_some_iff.mp h with hleading | ⟨-, htrailing⟩
  · obtain ⟨⟨inner, rest⟩, hgroup, rfl⟩ := Option.map_eq_some_iff.mp hleading
    rw [takeGroup?_eq_append hgroup] at hmarker
    rw [hasArgumentMarker_trim, hasArgumentMarker_collapse]
    exact hasArgumentMarker_or_of_foreign (by decide) (hasArgumentMarker_of_cons (by decide) hmarker)
  · obtain ⟨⟨before, inner⟩, hgroup, rfl⟩ := Option.map_eq_some_iff.mp htrailing
    rw [takeGroupBack?_eq_append hgroup] at hmarker
    rw [hasArgumentMarker_trim, hasArgumentMarker_collapse]
    rcases hasArgumentMarker_or_of_foreign (by decide) hmarker with hbefore | hinner
    · exact Or.inr hbefore
    · exact Or.inl (hasArgumentMarker_of_concat (by decide) hinner)

end AttributeBlock

/-! ## The default value -/

namespace InlineDefault

/-- The text outside the default value, or all of it. -/
def outside (cs : List Char) : List Char :=
  match find? cs with
  | some found => found.before ++ ' ' :: found.behind
  | none => cs

theorem splitKeyword?_eq_some {previous : Option Char} {cs before rest : List Char}
    (h : splitKeyword? previous cs = some (before, rest)) :
    ∃ keyword, cs = before ++ (keyword ++ rest) ∧ keyword.map foldLetter = "default:".toList := by
  induction cs generalizing previous before with
  | nil => cases h
  | cons c cs ih =>
    rw [splitKeyword?] at h
    split at h
    · next behind hbehind =>
      cases h
      split at hbehind
      · cases hbehind
      · exact afterWord?_eq_some_iff.mp hbehind
    · obtain ⟨⟨front, behind⟩, hfound, heq⟩ := Option.map_eq_some_iff.mp h
      cases heq
      obtain ⟨keyword, rfl, hkeyword⟩ := ih hfound
      exact ⟨keyword, rfl, hkeyword⟩

/-- The letters and the colon of the keyword are spelled in ASCII only. -/
theorem toNat_lt_of_foldLetter {c : Char} (h : foldLetter c ∈ "default:".toList) : c.toNat < 0x80 := by
  by_contra hlarge
  have hlower : c.toLower = c := by
    unfold Char.toLower
    rw [dif_neg]
    simp only [ge_iff_le, UInt32.le_iff_toNat_le, Char.reduceVal, UInt32.reduceToNat]
    rw [Char.toNat] at hlarge
    omega
  unfold foldLetter at h
  split at h
  · exact absurd h (by decide)
  · split at h
    · exact absurd h (by decide)
    · rw [hlower] at h
      have hascii : ∀ d ∈ "default:".toList, d.toNat < 0x80 := List.all_iff_forall_prop.mp (by decide)
      exact hlarge (hascii c h)

theorem isForeign_of_foldLetter {c : Char} (h : foldLetter c ∈ "default:".toList) : IsForeign c := by
  have hascii : ∀ n < 0x80, foldLetter (Char.ofNat n) ∈ "default:".toList → IsForeign (Char.ofNat n) := by
    decide
  have hc := hascii c.toNat (toNat_lt_of_foldLetter h)
  rw [Char.ofNat_toNat] at hc
  exact hc h

/-- A quoted value ends with its closing quote or with the text. -/
theorem splitQuote_cases (escaped : Bool) (cs : List Char) :
    splitQuote escaped cs = (cs, []) ∨
      ∃ inside behind, cs = inside ++ '"' :: behind ∧ splitQuote escaped cs = (inside ++ ['"'], behind) := by
  induction cs generalizing escaped with
  | nil => exact Or.inl rfl
  | cons c cs ih =>
    rw [splitQuote]
    split
    · next hclosed =>
      have hquote : c = '"' := by simp at hclosed; exact hclosed.2
      exact Or.inr ⟨[], cs, by rw [hquote]; rfl, rfl⟩
    · rcases ih (!escaped && c == '\\') with hopen | ⟨inside, behind, rfl, hclosed⟩
      · rw [hopen]
        exact Or.inl rfl
      · rw [hclosed]
        exact Or.inr ⟨c :: inside, behind, rfl, rfl⟩

/-- A value without quotes ends with the text or in front of a foreign character. -/
theorem splitBare_spec (depth : Nat) (cs : List Char) :
    (splitBare depth cs).1 ++ (splitBare depth cs).2 = cs ∧
      ∀ c ∈ (splitBare depth cs).2.head?, IsForeign c := by
  induction cs generalizing depth with
  | nil => exact ⟨rfl, by simp [splitBare]⟩
  | cons c cs ih =>
    rw [splitBare]
    split
    · next hstop =>
      refine ⟨rfl, ?_⟩
      rintro d ⟨⟩
      simp only [Bool.and_eq_true, Bool.or_eq_true, beq_iff_eq] at hstop
      rcases hstop.2 with ((rfl | rfl) | rfl) | hblank
      · decide
      · decide
      · decide
      · exact isForeign_of_isBlank hblank
    · obtain ⟨happend, hhead⟩ := ih (if c == '(' then depth + 1 else if c == ')' then depth - 1 else depth)
      exact ⟨congrArg (c :: ·) happend, hhead⟩

/-- A marker of a text stands in the value at its start or behind it. -/
theorem hasArgumentMarker_splitValue {cs : List Char} (h : hasArgumentMarker cs = true) :
    hasArgumentMarker (unquote (splitValue cs).1) = true ∨ hasArgumentMarker (splitValue cs).2 = true := by
  unfold splitValue
  split
  · next cs =>
    rcases splitQuote_cases false cs with hopen | ⟨inside, behind, rfl, hclosed⟩
    · rw [hopen]
      exact Or.inl (hasArgumentMarker_unquote h)
    · rw [hclosed, unquote_surround]
      exact (hasArgumentMarker_or_of_foreign (by decide) (hasArgumentMarker_of_cons (by decide) h)).imp_left
        hasArgumentMarker_unescapeQuotes
  · obtain ⟨happend, hhead⟩ := splitBare_spec 0 cs
    rw [← happend] at h
    exact (hasArgumentMarker_append hhead h).imp_left hasArgumentMarker_unquote

theorem find?_eq_some {cs : List Char} {found : InlineDefault} (h : find? cs = some found) :
    ∃ rest, splitKeyword? none cs = some (found.before, rest) ∧
      unquote (splitValue (trimStart rest)).1 = found.value ∧
      (splitValue (trimStart rest)).2 = found.behind := by
  obtain ⟨⟨before, rest⟩, hkeyword, h⟩ := Option.bind_eq_some_iff.mp h
  dsimp only at h
  split at h
  · cases h
  · cases h
    exact ⟨rest, hkeyword, rfl, rfl⟩

/-- A marker of a text stands in its default value or outside of it. -/
theorem hasArgumentMarker_or {cs : List Char} {found : InlineDefault} (h : find? cs = some found)
    (hmarker : hasArgumentMarker cs = true) :
    hasArgumentMarker found.value = true ∨
      hasArgumentMarker (found.before ++ ' ' :: found.behind) = true := by
  obtain ⟨rest, hsplit, hvalue, hbehind⟩ := find?_eq_some h
  obtain ⟨keyword, rfl, hkeyword⟩ := splitKeyword?_eq_some hsplit
  have hforeign : ∀ c ∈ keyword, IsForeign c := fun c hc =>
    isForeign_of_foldLetter (hkeyword ▸ List.mem_map_of_mem hc)
  have hhead : ∀ c ∈ (keyword ++ rest).head?, IsForeign c := by
    cases keyword with
    | nil => cases hkeyword
    | cons c keyword =>
      rintro d ⟨⟩
      exact hforeign c List.mem_cons_self
  rw [hasArgumentMarker_append_cons (by decide), ← hvalue, ← hbehind]
  rcases hasArgumentMarker_append hhead hmarker with hbefore | hrest
  · exact Or.inr (Or.inl hbefore)
  · have htrimmed : hasArgumentMarker (trimStart rest) = true := by
      rw [hasArgumentMarker_trimStart]
      exact hasArgumentMarker_of_append hforeign hrest
    exact (hasArgumentMarker_splitValue htrimmed).imp_right Or.inr

end InlineDefault

/-! ## The whole text -/

namespace Candidate

section Readers

variable (candidate : Candidate) (cs : List Char)

theorem withDefault_eq :
    (candidate.withDefault cs).1.positional = candidate.positional ∧
      (candidate.withDefault cs).2 = InlineDefault.outside cs := by
  unfold withDefault InlineDefault.outside
  cases InlineDefault.find? cs with
  | none => exact ⟨rfl, rfl⟩
  | some found => exact ⟨rfl, rfl⟩

theorem withPosition_positional :
    (candidate.withPosition cs).positional = true ↔ candidate.positional = true ∨
      ∃ digits n, firstFound? position cs = some digits ∧ number? digits = some n ∧ n ≠ 0 := by
  unfold withPosition
  cases hfirst : firstFound? position cs with
  | none => simp
  | some digits =>
    cases hnumber : number? digits with
    | none => simp [hnumber]
    | some n =>
      by_cases hzero : n = 0
      · simp [hnumber, hzero]
      · simp [hnumber, hzero]

theorem withRepetition_positional :
    (candidate.withRepetition cs).positional = true ↔
      candidate.positional = true ∨ occursIn repetition cs = true := by
  unfold withRepetition occursIn
  cases firstFound? repetition cs with
  | none => simp
  | some bounds => simp

/-- A text makes an argument of its parameter by its first position or by a repetition. -/
theorem readInline_positional :
    (candidate.readInline cs).positional = true ↔
      (candidate.positional = true ∨ ∃ digits n, firstFound? position (InlineDefault.outside cs) = some digits ∧
        number? digits = some n ∧ n ≠ 0) ∨
      occursIn repetition (replaceEach position (fun _ => [' ']) (InlineDefault.outside cs)) = true := by
  obtain ⟨hcandidate, houtside⟩ := withDefault_eq candidate cs
  have hread : (candidate.readInline cs).positional
      = (((candidate.withDefault cs).1.withPosition (candidate.withDefault cs).2).withRepetition
          (replaceEach position (fun _ => [' ']) (candidate.withDefault cs).2)).positional := rfl
  rw [hread, withRepetition_positional, withPosition_positional, hcandidate, houtside]

end Readers

variable {cs : List Char}

/-- The text in which markers are read: what remains without the attribute block and the default value. -/
def markedText (cs : List Char) : List Char :=
  InlineDefault.outside (AttributeBlock.outside cs)

/-- The marked text without its positions, in which repetitions are read. -/
def unplacedText (cs : List Char) : List Char :=
  replaceEach position (fun _ => [' ']) (markedText cs)

theorem ofChars_positional :
    (ofChars cs).positional = true ↔
      (∃ digits n, firstFound? position (markedText cs) = some digits ∧ number? digits = some n ∧ n ≠ 0) ∨
        occursIn repetition (unplacedText cs) = true := by
  unfold ofChars unplacedText markedText AttributeBlock.outside
  cases AttributeBlock.ofText? cs with
  | none =>
    rw [readInline_positional]
    simp
  | some block =>
    rw [readInline_positional, readAttributes_positional]
    simp

/-- Taking positions out leaves every repetition. -/
theorem occursIn_repetition_unplacedText (h : occursIn repetition (markedText cs) = true) :
    occursIn repetition (unplacedText cs) = true := by
  rw [repetition, readsWord_repetitionBounds.occursIn_iff] at h ⊢
  obtain ⟨w, hw, hrepetition⟩ := h
  exact ⟨w, mem_words_replaceEach_position hw hrepetition.not_mem_at, hrepetition⟩

/-- The ways in which the markers of arguments of a text are lost. -/
inductive LosesMarkers (cs : List Char) : Prop
  /-- They stand in the attribute block. -/
  | block (block : AttributeBlock) (hblock : AttributeBlock.ofText? cs = some block)
      (hmarker : hasArgumentMarker block.content = true) (hnone : hasArgumentMarker (markedText cs) = false)
  /-- They stand in the default value. -/
  | value (found : InlineDefault) (hfound : InlineDefault.find? (AttributeBlock.outside cs) = some found)
      (hmarker : hasArgumentMarker found.value = true) (hnone : hasArgumentMarker (markedText cs) = false)
  /-- The first position is zero or too large, and there is no repetition. -/
  | number (digits : List Char) (hposition : firstFound? position (markedText cs) = some digits)
      (hzero : ∀ n, number? digits = some n → n = 0) (hnone : occursIn repetition (unplacedText cs) = false)

/-- Without a marker outside the block and the default value, the markers of a text are lost. -/
theorem losesMarkers_of_markedText (h : hasArgumentMarker cs = true)
    (hnone : hasArgumentMarker (markedText cs) = false) : LosesMarkers cs := by
  have houtside : hasArgumentMarker (AttributeBlock.outside cs) = true → LosesMarkers cs := by
    intro hmarker
    cases hfind : InlineDefault.find? (AttributeBlock.outside cs) with
    | none =>
      rw [markedText, InlineDefault.outside, hfind, hmarker] at hnone
      cases hnone
    | some found =>
      refine .value found hfind ((InlineDefault.hasArgumentMarker_or hfind hmarker).resolve_right ?_) hnone
      rw [markedText, InlineDefault.outside, hfind] at hnone
      exact Bool.eq_false_iff.mp hnone
  cases hblock : AttributeBlock.ofText? cs with
  | none =>
    refine houtside ?_
    rwa [AttributeBlock.outside, hblock, hasArgumentMarker_trim]
  | some block =>
    rcases AttributeBlock.hasArgumentMarker_or hblock h with hcontent | hremainder
    · exact .block block hblock hcontent hnone
    · refine houtside ?_
      rwa [AttributeBlock.outside, hblock]

theorem positional_eq_false_of_markedText (hnone : hasArgumentMarker (markedText cs) = false) :
    (ofChars cs).positional = false := by
  obtain ⟨hposition, hrepetition⟩ := Bool.or_eq_false_iff.mp hnone
  have hunplaced : unplacedText cs = markedText cs :=
    replaceEach_of_misses (occursIn_eq_false_iff.mp hposition)
  rw [← Bool.not_eq_true, ofChars_positional, hunplaced, hrepetition]
  rintro (⟨digits, n, hfirst, -⟩ | hfalse)
  · rw [occursIn, hfirst] at hposition
    cases hposition
  · cases hfalse

theorem LosesMarkers.positional_eq_false (h : LosesMarkers cs) : (ofChars cs).positional = false := by
  cases h with
  | block block hblock hmarker hnone => exact positional_eq_false_of_markedText hnone
  | value found hfound hmarker hnone => exact positional_eq_false_of_markedText hnone
  | number digits hposition hzero hnone =>
    rw [← Bool.not_eq_true, ofChars_positional, hnone]
    rintro (⟨other, n, hfirst, hnumber, hne⟩ | hfalse)
    · rw [hposition, Option.some_inj] at hfirst
      rw [← hfirst] at hnumber
      exact hne (hzero n hnumber)
    · cases hfalse

/-- A marker outside the block and the default value makes an argument unless it is a position that is none. -/
theorem positional_or_losesMarkers (h : hasArgumentMarker (markedText cs) = true) :
    (ofChars cs).positional = true ∨ LosesMarkers cs := by
  rw [ofChars_positional]
  cases hrepetition : occursIn repetition (unplacedText cs) with
  | true => exact Or.inl (Or.inr rfl)
  | false =>
    cases hfirst : firstFound? position (markedText cs) with
    | some digits =>
      by_cases hzero : ∀ n, number? digits = some n → n = 0
      · exact Or.inr (.number digits hfirst hzero hrepetition)
      · push Not at hzero
        obtain ⟨n, hnumber, hne⟩ := hzero
        exact Or.inl (Or.inl ⟨digits, n, rfl, hnumber, hne⟩)
    | none =>
      -- Without a position the marker is a repetition, and it would still be one here.
      rw [hasArgumentMarker, occursIn, hfirst, Option.isSome_none, Bool.false_or] at h
      rw [occursIn_repetition_unplacedText h] at hrepetition
      cases hrepetition

/-- A text with a marker makes an argument of its parameter unless its markers are lost. -/
theorem ofChars_positional_iff (h : hasArgumentMarker cs = true) :
    (ofChars cs).positional = true ↔ ¬ LosesMarkers cs := by
  constructor
  · intro hpositional hloses
    rw [hloses.positional_eq_false] at hpositional
    cases hpositional
  · intro hkept
    cases hmarked : hasArgumentMarker (markedText cs) with
    | false => exact absurd (losesMarkers_of_markedText h hmarked) hkept
    | true => exact (positional_or_losesMarkers hmarked).resolve_right hkept

end Candidate

end CommandDoc
