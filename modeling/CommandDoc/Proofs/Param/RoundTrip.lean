import CommandDoc.Proofs.Param.AttributeBlock
import CommandDoc.Proofs.Param.Attributes
import CommandDoc.Proofs.Param.Description

/-!
# The text about a parameter can be read back

Everything that a comment can say about a parameter can be written as one text, from which the same candidate
is read again.  Reading takes the text apart from the outside: the attribute block first, then one kind of
marker after another, and each step leaves the parts of the later ones as they are.

Main definitions:

- `Candidate.written`: the text that says what a candidate holds.
- `Candidate.IsWritable`: what makes a candidate writable.
- `Candidate.IsWordOver`: which signs a word can hold, so that the steps for other signs pass it by.

Main results:

- Theorem `Candidate.withPosition_of_apart` and the theorems behind it: what each step reads and leaves.
- Theorem `Candidate.ofText_written`: a writable candidate is read back from its text.
-/

namespace CommandDoc

open Text

/-! ## Written markers -/

/-- The marker of a position. -/
def positionMarker (n : UInt32) : List Char :=
  '@' :: (toString n.toNat).toList

/-- A bound of a repetition; zero is no bound and is left out. -/
def boundDigits (n : UInt32) : List Char :=
  if n = 0 then [] else (toString n.toNat).toList

/-- The marker of a repetition. -/
def repetitionMarker (least greatest : UInt32) : List Char :=
  boundDigits least ++ "...".toList ++ boundDigits greatest

theorem isDigit_of_mem_boundDigits {n : UInt32} {c : Char} (h : c ∈ boundDigits n) : c.isDigit = true := by
  rw [boundDigits] at h
  split at h
  · cases h
  · exact Decimal.isDigit_of_mem_toString h

/-- A bound can be read back. -/
theorem number?_boundDigits (n : UInt32) : (Marker.number? (boundDigits n)).getD 0 = n := by
  rw [boundDigits]
  split
  · next hzero =>
    rw [hzero]
    rfl
  · rw [Marker.number?_toString, Option.getD_some]

namespace Candidate

/-! ## Written candidates -/

/-- The flags of a candidate, written. -/
def flagWords (c : Candidate) : List (List Char) :=
  (c.flags.map String.toList).map Marker.dashed

/-- The position of a candidate, written. -/
def positionWords (c : Candidate) : List (List Char) :=
  c.position.toList.map positionMarker

/-- The repetition of a candidate, written. -/
def repetitionWords (c : Candidate) : List (List Char) :=
  if c.vararg then [repetitionMarker c.varMin c.varMax] else []

/-- The attribute block of a candidate, if it has attributes. -/
def blockWords (c : Candidate) : List (List Char) :=
  if c.attributes = [] then [] else [AttributeBlock.parenthesize (Attribute.block c.attributes)]

/-- The text that says what a candidate holds: flags, position, repetition, description and attributes. -/
def written (c : Candidate) : String :=
  String.ofList (unwords (c.flagWords ++ (c.positionWords ++ (c.repetitionWords ++
    (c.description.toList.map String.toList ++ c.blockWords)))))

/-- A candidate that a text can hold. -/
structure IsWritable (c : Candidate) : Prop where
  /-- Flags have names of the usual form. -/
  flags_named : ∀ flag ∈ c.flags, Marker.IsFlagName flag.toList
  /-- Flags stand in canonical order. -/
  flags_sorted : c.flags.Pairwise (flagBefore · · = true)
  /-- A description consists of words of letters with a space between two of them. -/
  description_prose : ∀ text, c.description = some text →
    ∃ ws, ws ≠ [] ∧ (∀ w ∈ ws, IsProse w) ∧ text.toList = unwords ws
  /-- Positions are counted from one. -/
  position_ne_zero : c.position ≠ some 0
  /-- Without a repetition there are no bounds. -/
  bounds_zero : c.vararg = false → c.varMin = 0 ∧ c.varMax = 0
  /-- A position and a repetition make an argument, and nothing else does. -/
  positional_eq : c.positional = (c.position.isSome || c.vararg)
  /-- A default value has no backslash. -/
  default_unescaped : ∀ value, c.defaultValue = some value → '\\' ∉ value.toList
  /-- An environment variable has an identifier as its name. -/
  envVar_named : ∀ variableName, c.envVar = some variableName → IsIdentifier variableName.toList
  /-- Aliases are letters and digits. -/
  aliases_named : ∀ name ∈ c.aliases, Attribute.IsAlias name.toList
  /-- The function that reads the value is plain. -/
  parser_plain : ∀ function, c.parser = some function → function.IsPlain
  /-- The function that makes a value is plain. -/
  generator_plain : ∀ function, c.generator = some function → function.IsPlain

variable {c : Candidate}

/-- What a writable candidate says in its block can be written there. -/
theorem IsWritable.forall_attributes (h : c.IsWritable) : ∀ a ∈ c.attributes, a.IsWritable := by
  have hflag : ∀ {b : Bool} {a x : Attribute}, a ∈ (if b then [x] else []) → a = x := by
    intro b a x ha
    cases b with
    | false => cases ha
    | true => exact List.mem_singleton.mp ha
  intro a ha
  simp only [attributes, List.mem_append] at ha
  rcases ha with ha | ha | ha | ha | ha | ha | ha | ha
  · rw [hflag ha]
    trivial
  · rw [hflag ha]
    trivial
  · rw [hflag ha]
    trivial
  · obtain ⟨function, hfunction, rfl⟩ := List.mem_map.mp ha
    exact ⟨function, rfl, h.parser_plain function (Option.mem_toList.mp hfunction)⟩
  · obtain ⟨function, hfunction, rfl⟩ := List.mem_map.mp ha
    exact ⟨function, rfl, h.generator_plain function (Option.mem_toList.mp hfunction)⟩
  · split at ha
    · cases ha
    · next hne =>
      rw [List.mem_singleton.mp ha]
      exact ⟨hne, h.aliases_named⟩
  · obtain ⟨variableName, hname, rfl⟩ := List.mem_map.mp ha
    exact ⟨h.envVar_named variableName (Option.mem_toList.mp hname), rfl⟩
  · obtain ⟨value, hvalue, rfl⟩ := List.mem_map.mp ha
    exact h.default_unescaped value (Option.mem_toList.mp hvalue)

/-! ## What each step reads and leaves -/

section Steps

variable {front back : List (List Char)} {cs : List Char}

/-- The position is read, and the words around it stay. -/
theorem withPosition_of_apart {position : Option UInt32} (hzero : position ≠ some 0)
    (h : Apart front (position.toList.map positionMarker ++ back) cs) (hfront : ∀ w ∈ front, '@' ∉ w)
    (hback : ∀ w ∈ back, '@' ∉ w) (hc : c.position = none) :
    c.withPosition cs = { c with positional := c.positional || position.isSome, position := position } ∧
      Apart front back (replaceEach Marker.position (fun _ => [' ']) cs) := by
  cases position with
  | none =>
    have hmisses := Marker.misses_of_not_mem Marker.looksFor_positionDigits
      (h.not_mem (by decide) hfront hback) none
    have hfound : firstFound? Marker.position cs = none := firstFound?_of_misses hmisses
    constructor
    · rw [withPosition, hfound, Option.isSome_none, Bool.or_false]
      exact congrArg (fun position => { c with position := position }) hc
    · rw [Marker.position, replaceEach_of_misses hmisses]
      exact h
  | some n =>
    have hne : (toString n.toNat).toList ≠ [] := by
      rw [Nat.toString_eq_repr, Nat.toList_repr]
      exact Nat.toDigits_ne_nil
    obtain ⟨hfound, hrest⟩ :=
      Marker.Apart.position h hne (fun _ => Decimal.isDigit_of_mem_toString) hfront hback
    refine ⟨?_, hrest⟩
    have hn : ¬(n == 0) = true := by
      rw [beq_iff_eq]
      rintro rfl
      exact hzero rfl
    rw [withPosition, hfound, Option.bind_some, Marker.number?_toString]
    simp only [hn, if_false, Option.isSome_some, Bool.or_true, Bool.false_eq_true]

/-- The repetition is read, and the words around it stay. -/
theorem withRepetition_of_apart {vararg : Bool} {least greatest : UInt32}
    (hbounds : vararg = false → least = 0 ∧ greatest = 0)
    (h : Apart front ((if vararg then [repetitionMarker least greatest] else []) ++ back) cs)
    (hfront : ∀ w ∈ front, '.' ∉ w) (hback : ∀ w ∈ back, '.' ∉ w)
    (hc : (c.vararg, c.varMin, c.varMax) = (false, 0, 0)) :
    c.withRepetition cs
        = { c with
            vararg := vararg, positional := c.positional || vararg, varMin := least, varMax := greatest } ∧
      Apart front back (replaceEach Marker.repetition (fun _ => [' ']) cs) := by
  cases vararg with
  | false =>
    obtain ⟨rfl, rfl⟩ := hbounds rfl
    have hmisses := Marker.misses_of_not_mem Marker.looksFor_repetitionBounds
      (h.not_mem (by decide) hfront hback) none
    have hfound : firstFound? Marker.repetition cs = none := firstFound?_of_misses hmisses
    constructor
    · rw [withRepetition, hfound, Bool.or_false]
      exact congrArg (fun (vararg, least, greatest) =>
        { c with vararg := vararg, varMin := least, varMax := greatest }) hc
    · rw [Marker.repetition, replaceEach_of_misses hmisses]
      exact h
  | true =>
    obtain ⟨hfound, hrest⟩ := Marker.Apart.repetition h (fun _ => isDigit_of_mem_boundDigits)
      (fun _ => isDigit_of_mem_boundDigits) hfront hback
    refine ⟨?_, hrest⟩
    rw [withRepetition, hfound]
    simp only [number?_boundDigits, Bool.or_true]

end Steps

/-! ## What the words hold -/

section Words

/-- A word of ASCII letters, digits and some signs. -/
structure IsWordOver (signs w : List Char) : Prop where
  /-- There is something in it. -/
  ne_nil : w ≠ []
  /-- No character is anything else. -/
  forall_mem : ∀ d ∈ w, d.isAlphanum = true ∨ d ∈ signs

theorem IsWordOver.not_mem {signs w : List Char} (h : IsWordOver signs w) {d : Char}
    (hd : d.isAlphanum = false) (hsigns : d ∉ signs) : d ∉ w := by
  intro hmem
  rcases h.forall_mem d hmem with halphanum | hmem
  · rw [hd] at halphanum
    cases halphanum
  · exact hsigns hmem

theorem IsWordOver.mono {fewer signs w : List Char} (h : IsWordOver fewer w) (hsigns : fewer ⊆ signs) :
    IsWordOver signs w :=
  ⟨h.ne_nil, fun d hd => (h.forall_mem d hd).imp_right (hsigns ·)⟩

theorem isWordOver_of_isProse {w : List Char} (h : IsProse w) : IsWordOver [] w :=
  ⟨h.1, fun d hd => Or.inl (by rw [Char.isAlphanum, h.2 d hd, Bool.true_or])⟩

/-- The words for flags are made of letters, digits and two signs. -/
theorem isWordOver_of_mem_flagWords (h : c.IsWritable) {w : List Char} (hw : w ∈ c.flagWords) :
    IsWordOver ['_', '-'] w := by
  rw [flagWords, List.map_map] at hw
  obtain ⟨flag, hflag, rfl⟩ := List.mem_map.mp hw
  refine ⟨List.cons_ne_nil _ _, fun d hd => ?_⟩
  simp only [Function.comp_apply, Marker.dashed, List.mem_cons] at hd
  rcases hd with rfl | rfl | hd
  · simp
  · simp
  · simpa using (h.flags_named flag hflag).forall_mem d hd

theorem isWordOver_of_mem_positionWords {w : List Char} (hw : w ∈ c.positionWords) : IsWordOver ['@'] w := by
  obtain ⟨n, -, rfl⟩ := List.mem_map.mp hw
  refine ⟨List.cons_ne_nil _ _, fun d hd => ?_⟩
  rcases List.mem_cons.mp hd with rfl | hd
  · simp
  · exact Or.inl (isAlphanum_of_isDigit (Decimal.isDigit_of_mem_toString hd))

theorem isWordOver_of_mem_repetitionWords {w : List Char} (hw : w ∈ c.repetitionWords) :
    IsWordOver ['.'] w := by
  rw [repetitionWords] at hw
  split at hw
  · rw [List.mem_singleton] at hw
    rw [hw]
    refine ⟨by simp [repetitionMarker], fun d hd => ?_⟩
    rw [repetitionMarker, List.mem_append, List.mem_append] at hd
    rcases hd with (hd | hd) | hd
    · exact Or.inl (isAlphanum_of_isDigit (isDigit_of_mem_boundDigits hd))
    · exact Or.inr (by simpa using hd)
    · exact Or.inl (isAlphanum_of_isDigit (isDigit_of_mem_boundDigits hd))
  · cases hw

/-- The words outside the attribute block. -/
def outsideWords (c : Candidate) (ws : List (List Char)) : List (List Char) :=
  c.flagWords ++ (c.positionWords ++ (c.repetitionWords ++ ws))

variable {ws : List (List Char)}

/-- So are all words outside the block, with the signs of the markers. -/
theorem isWordOver_of_mem_outsideWords (h : c.IsWritable) (hws : ∀ w ∈ ws, IsProse w) {w : List Char}
    (hw : w ∈ c.outsideWords ws) : IsWordOver ['_', '-', '@', '.'] w := by
  simp only [outsideWords, List.mem_append] at hw
  rcases hw with hw | hw | hw | hw
  · exact (isWordOver_of_mem_flagWords h hw).mono (by decide)
  · exact (isWordOver_of_mem_positionWords hw).mono (by decide)
  · exact (isWordOver_of_mem_repetitionWords hw).mono (by decide)
  · exact (isWordOver_of_isProse (hws w hw)).mono (by decide)

/-- So no bracket or quote stands outside the block. -/
theorem isOutside_outsideWords (h : c.IsWritable) (hws : ∀ w ∈ ws, IsProse w) :
    AttributeBlock.IsOutside (c.outsideWords ws) := by
  intro w hw
  obtain ⟨hne, hchars⟩ := isWordOver_of_mem_outsideWords h hws hw
  refine ⟨hne, fun d hd => ?_⟩
  rcases hchars d hd with halphanum | hsign
  · refine ⟨isBlank_eq_false_of_isAlphanum halphanum, ?_⟩
    rintro rfl
    cases halphanum
  · have hsigns : (['_', '-', '@', '.'].all fun d => isBlank d = false ∧ d ≠ '(') = true := by decide
    exact of_decide_eq_true (List.all_eq_true.mp hsigns d hsign)

theorem not_mem_unwords_outsideWords (h : c.IsWritable) (hws : ∀ w ∈ ws, IsProse w) {d : Char}
    (hd : d.isAlphanum = false) (hsigns : d ∉ [' ', '_', '-', '@', '.']) :
    d ∉ unwords (c.outsideWords ws) := by
  rw [List.mem_cons, not_or] at hsigns
  exact not_mem_unwords hsigns.1 fun w hw => (isWordOver_of_mem_outsideWords h hws hw).not_mem hd hsigns.2

end Words

/-! ## Reading the words outside the block -/

/-- All flags are read, and only words of letters are left. -/
theorem withFlags_of_apart {ws : List (List Char)} {cs : List Char} (h : c.IsWritable)
    (hapart : Apart c.flagWords ws cs) (hws : ∀ w ∈ ws, IsProse w) (d : Candidate) (hd : d.flags = []) :
    d.withFlags cs = { d with flags := c.flags } ∧
      ∃ n, replaceEach Marker.flag (fun found => found.1.toList) cs = List.replicate n ' ' ++ unwords ws := by
  have hnames : ∀ name ∈ c.flags.map String.toList, Marker.IsFlagName name := by
    intro name hname
    obtain ⟨flag, hflag, rfl⟩ := List.mem_map.mp hname
    exact h.flags_named flag hflag
  obtain ⟨hfound, hrest⟩ := Marker.Apart.flags hapart hnames fun w hw =>
    (isWordOver_of_isProse (hws w hw)).not_mem (by decide) (by decide)
  refine ⟨?_, hrest⟩
  have hflags : (allFound Marker.flag cs).map (fun found => String.ofList found.2) = c.flags := by
    rw [← Attribute.map_ofList_map_toList c.flags, ← hfound, List.map_map]
    rfl
  rw [withFlags, hd, List.nil_append]
  exact congrArg (fun flags => { d with flags := flags }) hflags

/-- No default value stands outside the block. -/
theorem withDefault_outsideWords {ws : List (List Char)} (h : c.IsWritable) (hws : ∀ w ∈ ws, IsProse w)
    (d : Candidate) :
    d.withDefault (unwords (c.outsideWords ws)) = (d, unwords (c.outsideWords ws)) := by
  rw [withDefault, InlineDefault.find?_eq_none
    (not_mem_unwords_outsideWords h hws (by decide) (by decide))]

/-- Laid into what the attributes hold, the words outside the block give the candidate. -/
theorem readInline_outsideWords {ws : List (List Char)} (h : c.IsWritable) (hws : ∀ w ∈ ws, IsProse w)
    (hdescription : c.description = if ws = [] then none else some (String.ofList (unwords ws))) :
    c.attributed.readInline (unwords (c.outsideWords ws)) = c := by
  have hflags : ∀ w ∈ c.flagWords, IsWordOver ['_', '-'] w := fun w hw => isWordOver_of_mem_flagWords h hw
  have hprose : ∀ w ∈ ws, IsWordOver [] w := fun w hw => isWordOver_of_isProse (hws w hw)
  have hrepetition : ∀ w ∈ c.repetitionWords ++ ws, IsWordOver ['.'] w := by
    intro w hw
    rcases List.mem_append.mp hw with hw | hw
    · exact isWordOver_of_mem_repetitionWords hw
    · exact (hprose w hw).mono (by decide)
  have hapart : Apart c.flagWords (c.positionWords ++ (c.repetitionWords ++ ws))
      (unwords (c.outsideWords ws)) := apart_unwords _ _
  obtain ⟨hplaced, hunplaced⟩ := withPosition_of_apart (c := c.attributed) h.position_ne_zero hapart
    (fun w hw => (hflags w hw).not_mem (by decide) (by decide))
    (fun w hw => (hrepetition w hw).not_mem (by decide) (by decide)) rfl
  obtain ⟨hrepeated, hunrepeated⟩ := withRepetition_of_apart
    (c := { c.attributed with
      positional := c.attributed.positional || c.position.isSome, position := c.position })
    h.bounds_zero hunplaced (fun w hw => (hflags w hw).not_mem (by decide) (by decide))
    (fun w hw => (hprose w hw).not_mem (by decide) (by decide)) rfl
  obtain ⟨hflagged, n, hunflagged⟩ := withFlags_of_apart h hunrepeated hws
    { c.attributed with
      positional := c.attributed.positional || c.position.isSome || c.vararg
      position := c.position
      vararg := c.vararg
      varMin := c.varMin
      varMax := c.varMax } rfl
  have hpositional : (c.attributed.positional || c.position.isSome || c.vararg) = c.positional :=
    h.positional_eq.symm
  -- Each step finds its own marker in what the one before it left, so the equations are used in this order.
  rw [readInline, withDefault_outsideWords h hws]
  dsimp only
  rw [hplaced, hrepeated, hflagged, hunflagged,
    cleanDescription_of_collapse hws (collapse_replicate_append_unwords hws n),
    canonicalFlags_eq_self h.flags_named h.flags_sorted, hpositional]
  simp only [isEmpty_unwords_iff hws, ← hdescription, attributed, Option.none_or]

/-! ## Reading the whole text -/

/-- The description of a writable candidate is words of prose with single spaces. -/
theorem IsWritable.exists_prose (h : c.IsWritable) :
    ∃ ws, (∀ w ∈ ws, IsProse w) ∧
      c.description = if ws = [] then none else some (String.ofList (unwords ws)) := by
  cases hdescription : c.description with
  | none => exact ⟨[], by simp, rfl⟩
  | some text =>
    obtain ⟨ws, hne, hws, htext⟩ := h.description_prose text hdescription
    exact ⟨ws, hws, by rw [if_neg hne, ← htext, String.ofList_toList]⟩

/-- A description is written as its words are. -/
theorem toList_written {ws : List (List Char)}
    (hdescription : c.description = if ws = [] then none else some (String.ofList (unwords ws))) :
    c.written.toList = unwords (c.outsideWords ws ++ c.blockWords) := by
  rw [written, String.toList_ofList, hdescription]
  by_cases hempty : ws = []
  · simp [hempty, outsideWords]
  · have hjoined := unwords_append_unwords hempty (c.flagWords ++ (c.positionWords ++ c.repetitionWords))
      c.blockWords
    simpa [hempty, outsideWords] using hjoined

/-- A writable candidate is read back from its text. -/
theorem ofText_written (h : c.IsWritable) : Candidate.ofText c.written = c := by
  obtain ⟨ws, hws, hdescription⟩ := h.exists_prose
  have hread := readInline_outsideWords h hws hdescription
  have houtside := isOutside_outsideWords h hws
  have hattributed : readAttributes (Attribute.block c.attributes) {} = c.attributed :=
    readAttributes_block h.forall_attributes
  rw [Candidate.ofText, toList_written hdescription, blockWords, ofChars]
  by_cases hempty : c.attributes = []
  · have htrim := trim_unwords houtside.forall_isBlank
    have hnone := AttributeBlock.ofText?_eq_none htrim
      (not_mem_unwords_outsideWords h hws (by decide) (by decide))
      (not_mem_unwords_outsideWords h hws (by decide) (by decide))
    have hnothing : c.attributed = {} := by
      rw [← hattributed, hempty]
      rfl
    rw [hnothing] at hread
    rw [if_pos hempty, List.append_nil, hnone]
    dsimp only
    rw [htrim, hread]
  · have hblock := AttributeBlock.ofText?_append houtside (Attribute.isBalanced_block h.forall_attributes)
      (Attribute.trim_block h.forall_attributes)
    rw [if_neg hempty, hblock]
    dsimp only
    rw [hattributed, hread]

/-- A candidate with everything a text can hold: the largest numbers, and separators, quotes and parentheses
in the default value and in the import path. -/
def crowded : Candidate where
  flags := ["dry-run", "verbose", "n_0-", "9", "v"]
  description := some "set the LEVEL of detail"
  required := true
  inherited := true
  fromParent := true
  positional := true
  position := some 4294967295
  vararg := true
  varMax := 4294967295
  defaultValue := some "a; \"b\" (c,\n"
  envVar := some "_APP_2"
  aliases := ["lvl", "x2"]
  parser := some ⟨some "ex.com/l v;(x", none, "Parse"⟩
  generator := some ⟨none, some "gen", "Names"⟩

theorem isWritable_crowded : crowded.IsWritable where
  flags_named := by decide +kernel
  flags_sorted := by decide +kernel
  description_prose := by
    rintro text ⟨⟩
    exact ⟨["set".toList, "the".toList, "LEVEL".toList, "of".toList, "detail".toList], by decide, by decide,
      by decide⟩
  position_ne_zero := by decide
  bounds_zero := by nofun
  positional_eq := rfl
  default_unescaped := by
    rintro value ⟨⟩
    decide
  envVar_named := by
    rintro variableName ⟨⟩
    decide
  aliases_named := by decide
  parser_plain := by
    rintro function ⟨⟩
    exact .imported (by decide) (by decide) (by decide)
  generator_plain := by
    rintro function ⟨⟩
    exact .qualified (by decide) (by decide)

/-- The text of the crowded candidate, from which it is read back. -/
theorem ofText_written_crowded :
    crowded.written.toList
        = "--dry-run --verbose --n_0- --9 --v @4294967295 ...4294967295 set the LEVEL of detail ".toList ++
          "(required; global; from: parent; parser: \"ex.com/l v;(x\".Parse; generator: gen.Names; ".toList ++
          "aka: lvl x2; default from environment _APP_2; default: \"a; \\\"b\\\" (c,\n\")".toList ∧
      Candidate.ofText crowded.written = crowded := by
  refine ⟨?_, ofText_written isWritable_crowded⟩
  rw [written, String.toList_ofList]
  decide +kernel

end Candidate

end CommandDoc
