import CommandDoc.Proofs.Name.Flag
import CommandDoc.Proofs.Param.DefaultValue
import CommandDoc.Proofs.Param.RoundTrip
import CommandDoc.Proofs.Text.Words

/-!
# Flags in front of a description

Flags stand in a row in front of the words of a description, each behind one dash or two, with a space or a
comma and a space between two of them.  The flags are read in whatever order and form they are written, and
nothing of the row is left in the description.

Main definitions:

- `FlagRow`: a row of written flags, with its text.
- `IsDebris`: spaces and commas, as a row of flags leaves them behind.

Main results:

- Theorem `cleanDescription_append`: spaces and commas in front of words are dropped.
- Theorem `Candidate.ofText_flagRow`: what is read from flags and words, and that it does not depend on how the
  flags are written.
-/

namespace CommandDoc

open Text

/-! ## Rows of flags -/

/-- Flags in a row. -/
structure FlagRow where
  /-- All flags but the last, and whether a comma stands between each and the space behind it. -/
  init : List (Marker.WrittenFlag × Bool)
  /-- The last flag. -/
  last : Marker.WrittenFlag
  /-- Each of them has a name. -/
  named : ∀ written ∈ init.map (·.1) ++ [last], Marker.IsFlagName written.name

namespace FlagRow

/-- The flags of a row. -/
def flags (row : FlagRow) : List Marker.WrittenFlag :=
  row.init.map (·.1) ++ [row.last]

/-- The names of the flags. -/
def names (row : FlagRow) : List String :=
  row.flags.map fun written => String.ofList written.name

/-- What stands between two flags. -/
def separator (comma : Bool) : List Char :=
  if comma then [',', ' '] else [' ']

/-- The characters of a row. -/
def chars (row : FlagRow) : List Char :=
  row.init.flatMap (fun entry => entry.1.chars ++ separator entry.2) ++ row.last.chars

/-- The text of a row with the words of a description behind it. -/
def text (row : FlagRow) (ws : List (List Char)) : String :=
  String.ofList (row.chars ++ ' ' :: unwords ws)

/-- The flags of a row with the commas behind them. -/
def entries (row : FlagRow) : List (Marker.WrittenFlag × Bool) :=
  row.init ++ [(row.last, false)]

variable (row : FlagRow)

/-- A row has at least one flag. -/
theorem entries_ne_nil : row.entries ≠ [] := by
  simp [entries]

/-- The flags of a row are those of its entries. -/
theorem map_entries : row.entries.map (·.1) = row.flags := by
  simp [entries, flags]

/-- Every flag of a row has a name that is one of a flag. -/
theorem isFlagName_of_mem_entries : ∀ entry ∈ row.entries, Marker.IsFlagName entry.1.name := by
  intro entry hentry
  apply row.named
  rw [← flags, ← map_entries]
  exact List.mem_map_of_mem hentry

/-- The words of a row are its flags, each with the comma behind it. -/
theorem chars_eq_unwords : row.chars = unwords (row.entries.map Marker.flagWord) := by
  have hinit : row.init.flatMap (fun entry => entry.1.chars ++ separator entry.2)
      = leadingWords (row.init.map Marker.flagWord) := by
    rw [leadingWords, List.flatMap_map]
    apply List.flatMap_congr
    rintro ⟨written, comma⟩ -
    cases comma <;> simp [separator, Marker.flagWord, Marker.optionalComma]
  rw [entries, List.map_append, List.map_singleton, unwords_append_cons, chars, hinit]
  simp [Marker.flagWord, Marker.optionalComma, spacedWords]

/-- The words of a row are made of letters, digits and the signs of flags. -/
theorem isWordOver_of_mem_entries {w : List Char} (hw : w ∈ row.entries.map Marker.flagWord) :
    Candidate.IsWordOver ['_', '-', ','] w := by
  obtain ⟨⟨written, comma⟩, hentry, rfl⟩ := List.mem_map.mp hw
  have hname := (row.isFlagName_of_mem_entries _ hentry).forall_mem
  constructor
  · cases hdoubled : written.doubled <;> simp [Marker.flagWord, Marker.WrittenFlag.chars, hdoubled]
  · intro d hd
    have hmem : d = '-' ∨ d ∈ written.name ∨ d = ',' := by
      cases hdoubled : written.doubled <;> cases comma <;>
        simp [Marker.flagWord, Marker.WrittenFlag.chars, Marker.optionalComma, hdoubled] at hd <;> tauto
    rcases hmem with rfl | hmem | rfl
    · exact Or.inr (by decide)
    · exact (hname d hmem).imp_right (by simp; tauto)
    · exact Or.inr (by decide)

end FlagRow

/-! ## What a row of flags leaves behind -/

/-- A text of spaces and commas. -/
def IsDebris (cs : List Char) : Prop :=
  ∀ c ∈ cs, c = ' ' ∨ c = ','

/-- Debris after debris is debris. -/
theorem IsDebris.append {xs ys : List Char} (hxs : IsDebris xs) (hys : IsDebris ys) : IsDebris (xs ++ ys) :=
  fun c hc => (List.mem_append.mp hc).elim (hxs c) (hys c)

/-- A comma, or none, is debris. -/
theorem isDebris_optionalComma (comma : Bool) : IsDebris (Marker.optionalComma comma) := by
  cases comma <;> simp [Marker.optionalComma, IsDebris]

/-- What stands between flags, without the flags. -/
theorem isDebris_separators (comma : Bool) (entries : List (Marker.WrittenFlag × Bool)) :
    IsDebris (Marker.optionalComma comma
      ++ entries.flatMap fun other => ' ' :: Marker.optionalComma other.2) := by
  apply (isDebris_optionalComma comma).append
  intro c hc
  obtain ⟨other, -, hmem⟩ := List.mem_flatMap.mp hc
  exact (List.mem_cons.mp hmem).elim Or.inl (isDebris_optionalComma other.2 c)

/-- A run of commas ends before a text without commas starts. -/
theorem commaRun_append_le {rest : List Char} (hrest : ',' ∉ rest) (debris : List Char) (gap : Nat) :
    (Marker.commaRun gap (debris ++ rest)).1 ≤ gap + debris.length := by
  induction debris generalizing gap with
  | nil => simp [commaRun_eq_zero hrest]
  | cons c debris ih =>
    have hcomma := ih 0
    have hblank := ih (gap + 1)
    rw [List.cons_append, Marker.commaRun, List.length_cons]
    split
    · simp
      omega
    · split
      · omega
      · simp

/-- Repeated commas in front of words are dropped, and debris is left; the reading can start inside an occurrence,
but not behind the debris. -/
theorem segmentsFrom_repeatedCommas_append {shown : Segment Unit → List Char}
    (hliteral : ∀ c, shown (.literal c) = [c]) (hhit : ∀ found, shown (.hit found) = [',']) {rest : List Char}
    (hrest : ',' ∉ rest) {debris : List Char} (h : IsDebris debris) {taken : Nat} (htaken : taken ≤ debris.length)
    (before : Option Char) :
    ∃ left, IsDebris left ∧
      (segmentsFrom Marker.repeatedCommas taken before (debris ++ rest)).flatMap shown = left ++ rest := by
  induction debris generalizing taken before with
  | nil =>
    obtain rfl : taken = 0 := by simpa using htaken
    have hmisses := segmentsFrom_append_of_misses (misses_repeatedCommas hrest before)
    rw [List.append_nil] at hmisses
    refine ⟨[], by simp [IsDebris], ?_⟩
    rw [List.nil_append, hmisses, segmentsFrom, List.append_nil, flatMap_literals hliteral]
  | cons c debris ih =>
    have hmore : ∀ taken ≤ debris.length, ∀ before, ∃ left, IsDebris left ∧
        (segmentsFrom Marker.repeatedCommas taken before (debris ++ rest)).flatMap shown = left ++ rest :=
      fun _ hle before => ih (fun d hd => h d (List.mem_cons_of_mem _ hd)) hle before
    cases taken with
    | succ taken => exact hmore taken (by simpa using htaken) _
    | zero =>
      rw [List.cons_append, segmentsFrom]
      split
      · next found length hfound =>
        have hlength : length ≤ debris.length + 1 := by
          have hrun := commaRun_append_le hrest (c :: debris) 0
          simp [Marker.repeatedCommas] at hfound hrun
          omega
        obtain ⟨left, hleft, heq⟩ := hmore (length - 1) (by omega) (some c)
        exact ⟨',' :: left, by simpa [IsDebris] using hleft, by simp [hhit, heq]⟩
      · obtain ⟨left, hleft, heq⟩ := hmore 0 (Nat.zero_le _) (some c)
        have hc := h c List.mem_cons_self
        exact ⟨c :: left, by simpa [IsDebris, hc] using hleft, by simp [hliteral, heq]⟩

/-- Replacing repeated commas turns debris before a text into debris, and leaves the text. -/
theorem replaceEach_repeatedCommas_append {rest : List Char} (hrest : ',' ∉ rest) {debris : List Char}
    (h : IsDebris debris) :
    ∃ left, IsDebris left ∧
      replaceEach Marker.repeatedCommas (fun _ => [',']) (debris ++ rest) = left ++ rest :=
  segmentsFrom_repeatedCommas_append (fun _ => rfl) (fun _ => rfl) hrest h (Nat.zero_le _) none

/-- Closing up commas leaves a text without commas as it is. -/
theorem closeCommas_append {rest : List Char} (hrest : ',' ∉ rest) (debris : List Char) :
    closeCommas (debris ++ rest) = closeCommas debris ++ rest := by
  fun_induction closeCommas debris with
  | case1 cs ih => simp [closeCommas, ih]
  | case2 c cs hnot ih =>
    rw [List.cons_append, closeCommas, ih, List.cons_append]
    rintro behind rfl heq
    cases cs with
    | nil => exact hrest (by rw [← List.nil_append rest, heq]; exact List.mem_cons_self)
    | cons d cs => exact hnot cs rfl (by rw [(List.cons.inj heq).1])
  | case3 => exact closeCommas_eq_self hrest

/-- Collapsed debris in front of words is debris. -/
theorem collapse_append_spacedWords {debris : List Char} (h : IsDebris debris) {ws : List (List Char)}
    (hws : ∀ w ∈ ws, IsProse w) :
    ∃ left, IsDebris left ∧ collapse (debris ++ spacedWords ws) = left ++ unwords ws := by
  have hcommas : ∀ w ∈ words debris, IsDebris w := fun w hw c hc => h c (mem_of_mem_words hw hc)
  have hwords : words (debris ++ spacedWords ws) = words debris ++ ws :=
    words_append_spacedWords (fun w hw => ⟨(hws w hw).1, (hws w hw).forall_isBlank⟩) debris
  rw [collapse, hwords, ← unwords]
  cases ws with
  | nil =>
    refine ⟨unwords (words debris), ?_, by simp [unwords]⟩
    intro c hc
    rcases mem_unwords hc with hspace | ⟨w, hw, hmem⟩
    · exact Or.inl hspace
    · exact hcommas w hw c hmem
  | cons w ws =>
    refine ⟨leadingWords (words debris), ?_, by rw [unwords_append_cons, unwords_cons]⟩
    intro c hc
    obtain ⟨v, hv, hmem⟩ := List.mem_flatMap.mp hc
    rcases List.mem_append.mp hmem with hmem | hspace
    · exact hcommas v hv c hmem
    · exact Or.inl (List.mem_singleton.mp hspace)

/-- Spaced prose holds no sign but the space. -/
theorem not_mem_spacedWords_of_isProse {ws : List (List Char)} (hws : ∀ w ∈ ws, IsProse w) {d : Char}
    (hspace : d ≠ ' ') (hd : d.isAlpha = false) : d ∉ spacedWords ws := by
  cases ws with
  | nil => exact List.not_mem_nil
  | cons w ws =>
    rw [spacedWords_eq (List.cons_ne_nil w ws), List.mem_cons, not_or]
    exact ⟨hspace, not_mem_unwords_of_isProse hws hspace hd⟩

/-- Spaces and commas in front of words are dropped. -/
theorem cleanDescription_append {debris : List Char} (h : IsDebris debris) {ws : List (List Char)}
    (hws : ∀ w ∈ ws, IsProse w) : cleanDescription (debris ++ spacedWords ws) = unwords ws := by
  have hbracket : ∀ d : Char, d ≠ ' ' → d ≠ ',' → d.isAlpha = false → d ∉ debris ++ spacedWords ws := by
    intro d hspace hcomma hd
    rw [List.mem_append, not_or]
    exact ⟨fun hmem => (h d hmem).elim hspace hcomma, not_mem_spacedWords_of_isProse hws hspace hd⟩
  have hcomma : ',' ∉ unwords ws := not_mem_unwords_of_isProse hws (by decide) (by decide)
  obtain ⟨left, hleft, hcommas⟩ := replaceEach_repeatedCommas_append
    (not_mem_spacedWords_of_isProse hws (by decide) (by decide)) h
  obtain ⟨front, hfront, hcollapse⟩ := collapse_append_spacedWords hleft hws
  have hclosed : ∀ c ∈ closeCommas front, isLeadingDebris c = true := by
    intro c hc
    rcases hfront c ((closeCommas_sublist front).subset hc) with rfl | rfl <;> decide
  rw [cleanDescription,
    replaceEach_of_misses (misses_emptyBrackets (hbracket '(' (by decide) (by decide) (by decide))
      (hbracket '[' (by decide) (by decide) (by decide)) none), hcommas, hcollapse,
    closeCommas_append hcomma, List.dropWhile_append_of_pos hclosed, dropWhile_unwords hws,
    dropTail_unwords hws]

/-! ## Reading rows of flags -/

/-- The canonical flags of a row are its names, sorted and without repetition. -/
theorem FlagRow.canonicalFlags_names (row : FlagRow) :
    canonicalFlags row.names = Ordered.sortDistinct flagBefore row.names := by
  apply canonicalFlags_eq_sortDistinct
  intro name hname
  obtain ⟨written, hwritten, rfl⟩ := List.mem_map.mp hname
  rw [String.toList_ofList]
  exact row.named written hwritten

namespace Candidate

/-- A word over signs that are no blanks has no blank in it. -/
theorem IsWordOver.forall_isBlank {signs w : List Char} (h : IsWordOver signs w)
    (hsigns : ∀ d ∈ signs, isBlank d = false) : ∀ d ∈ w, isBlank d = false :=
  fun d hd => (h.forall_mem d hd).elim isBlank_eq_false_of_isAlphanum (hsigns d)

section Reading

variable {row : FlagRow} {ws : List (List Char)}

/-- Every word of a row is made of letters, digits and the signs of flags. -/
theorem isWordOver_of_mem_row (hws : ∀ w ∈ ws, IsProse w) {w : List Char}
    (hw : w ∈ row.entries.map Marker.flagWord ++ ws) : IsWordOver ['_', '-', ','] w := by
  rcases List.mem_append.mp hw with hw | hw
  · exact row.isWordOver_of_mem_entries hw
  · exact (isWordOver_of_isProse (hws w hw)).mono (List.nil_subset _)

/-- The text of a row, trimmed, consists of its flags and the words behind them. -/
theorem trim_row (hws : ∀ w ∈ ws, IsProse w) :
    trim (row.chars ++ ' ' :: unwords ws) = unwords (row.entries.map Marker.flagWord ++ ws) := by
  have hfree : ∀ w ∈ row.entries.map Marker.flagWord ++ ws, w ≠ [] ∧ ∀ c ∈ w, isBlank c = false := by
    intro w hw
    have hover := isWordOver_of_mem_row hws hw
    have hsigns : isBlank '_' = false ∧ isBlank '-' = false ∧ isBlank ',' = false := by decide
    exact ⟨hover.ne_nil, hover.forall_isBlank (by simpa using hsigns)⟩
  have hne : row.entries.map Marker.flagWord ≠ [] := by simp [row.entries_ne_nil]
  rw [row.chars_eq_unwords]
  by_cases hempty : ws = []
  · have hspace : ∀ c ∈ [' '], isBlank c = true := by
      rw [List.forall_mem_singleton]
      decide
    rw [hempty, List.append_nil] at hfree ⊢
    rw [show ' ' :: unwords [] = [' '] from rfl, trim_append_of_isBlank hspace, trim_unwords hfree]
  · rw [← unwords_append hne hempty, trim_unwords hfree]

/-- So a row holds no other sign. -/
theorem not_mem_row (hws : ∀ w ∈ ws, IsProse w) {d : Char} (hd : d.isAlphanum = false)
    (hsigns : d ∉ [' ', '_', '-', ',']) : d ∉ unwords (row.entries.map Marker.flagWord ++ ws) := by
  rw [List.mem_cons, not_or] at hsigns
  exact not_mem_unwords hsigns.1 fun w hw => (isWordOver_of_mem_row hws hw).not_mem hd hsigns.2

/-- From a row of flags with words behind it the flags are read, and the words are the description. -/
theorem readInline_row (hws : ∀ w ∈ ws, IsProse w) :
    readInline {} (unwords (row.entries.map Marker.flagWord ++ ws))
      = { flags := canonicalFlags row.names, description := described ws } := by
  have hfree : ∀ {d : Char}, d.isAlphanum = false → d ∉ [' ', '_', '-', ','] →
      d ∉ unwords (row.entries.map Marker.flagWord ++ ws) := not_mem_row hws
  have hposition : Misses Marker.position none (unwords (row.entries.map Marker.flagWord ++ ws)) [] :=
    Marker.misses_of_not_mem Marker.looksFor_positionDigits (hfree (by decide) (by decide)) none
  have hrepetition : Misses Marker.repetition none (unwords (row.entries.map Marker.flagWord ++ ws)) [] :=
    Marker.misses_of_not_mem Marker.looksFor_repetitionBounds (hfree (by decide) (by decide)) none
  have hnames := row.isFlagName_of_mem_entries
  have hflags : row.names = row.entries.map fun entry => String.ofList entry.1.name := by
    rw [FlagRow.names, ← row.map_entries, List.map_map]
    rfl
  obtain ⟨entry, entries, hentries⟩ := List.exists_cons_of_ne_nil row.entries_ne_nil
  rw [hentries] at hnames hflags
  have hdash : '-' ∉ spacedWords ws := not_mem_spacedWords_of_isProse hws (by decide) (by decide)
  obtain ⟨hfound, hleft⟩ := Marker.found_flags hnames hdash (head?_spacedWords ws)
  have hsplit : unwords (row.entries.map Marker.flagWord ++ ws)
      = unwords ((entry :: entries).map Marker.flagWord) ++ spacedWords ws := by
    rw [hentries, List.map_cons, List.cons_append, unwords_cons, unwords_cons, spacedWords_append,
      List.append_assoc]
  have hread : (allFound Marker.flag (unwords (row.entries.map Marker.flagWord ++ ws))).map
      (fun found => String.ofList found.2) = row.names := by
    rw [hsplit, hflags]
    simpa [Function.comp_def] using congrArg (List.map String.ofList) hfound
  rw [readInline, withDefault, InlineDefault.find?_eq_none (hfree (by decide) (by decide))]
  dsimp only
  rw [withPosition, firstFound?_of_misses hposition, replaceEach_of_misses hposition, withRepetition,
    firstFound?_of_misses hrepetition, replaceEach_of_misses hrepetition, withFlags, hread, hsplit, hleft,
    ← List.append_assoc, cleanDescription_append (isDebris_separators entry.2 entries) hws]
  simp [isEmpty_unwords_iff hws, described]

/-- A row is read as its flags and the prose behind them, and as nothing else. -/
theorem ofText_row (hws : ∀ w ∈ ws, IsProse w) :
    ofText (row.text ws) = { flags := canonicalFlags row.names, description := described ws } := by
  have hblock : AttributeBlock.ofText? (row.chars ++ ' ' :: unwords ws) = none := by
    have htrim : trim (trim (row.chars ++ ' ' :: unwords ws))
        = trim (unwords (row.entries.map Marker.flagWord ++ ws)) := congrArg trim (trim_row hws)
    rw [trim_trim, trim_row hws] at htrim
    rw [AttributeBlock.ofText?, trim_row hws]
    have hnone := AttributeBlock.ofText?_eq_none htrim.symm (not_mem_row hws (by decide) (by decide))
      (not_mem_row hws (by decide) (by decide))
    rwa [AttributeBlock.ofText?, ← htrim] at hnone
  rw [ofText, FlagRow.text, String.toList_ofList, ofChars, hblock]
  dsimp only
  rw [trim_row hws, readInline_row hws]

end Reading

/-- From a row of flags in front of words the distinct names are read in canonical order, and the words are the
description; a row with the same names says the same, in whatever order and form they are written. -/
theorem ofText_flagRow (row : FlagRow) {ws : List (List Char)} (hws : ∀ w ∈ ws, IsProse w) :
    (∃ flags : List String,
      flags.Pairwise (fun a b => b.length < a.length ∨ a.length = b.length ∧ a < b) ∧
        (∀ name, name ∈ flags ↔ name ∈ row.names) ∧
          ofText (row.text ws) = { flags := flags, description := described ws }) ∧
      ∀ other : FlagRow, (∀ name, name ∈ other.names ↔ name ∈ row.names) →
        ofText (other.text ws) = ofText (row.text ws) := by
  constructor
  · refine ⟨canonicalFlags row.names, ?_, ?_, ofText_row hws⟩
    · rw [row.canonicalFlags_names]
      exact (Ordered.pairwise_sortDistinct flagBefore_strictOrder _).imp flagBefore_iff.mp
    · intro name
      rw [row.canonicalFlags_names, Ordered.mem_sortDistinct flagBefore_strictOrder]
  · intro other hnames
    rw [ofText_row hws, ofText_row hws, row.canonicalFlags_names, other.canonicalFlags_names,
      Ordered.sortDistinct_eq_of_mem_iff flagBefore_strictOrder hnames]

/-- Four flags, one of them written twice. -/
def verboseRow : FlagRow where
  init := [(⟨false, "v".toList⟩, true), (⟨true, "verbose".toList⟩, true), (⟨false, "v".toList⟩, false)]
  last := ⟨true, "dry_run-2".toList⟩
  named := by decide

/-- The same flags in another order and form. -/
def reorderedRow : FlagRow where
  init := [(⟨false, "dry_run-2".toList⟩, false), (⟨true, "v".toList⟩, true)]
  last := ⟨false, "verbose".toList⟩
  named := by decide

/-- What is read from both rows. -/
theorem ofText_flagRow_verbose :
    ofText "-v, --verbose, -v --dry_run-2 Show more"
        = { flags := ["dry_run-2", "verbose", "v"], description := some "Show more" } ∧
      ofText "-dry_run-2 --v, -verbose Show more" = ofText "-v, --verbose, -v --dry_run-2 Show more" := by
  have htext : "-v, --verbose, -v --dry_run-2 Show more"
      = verboseRow.text ["Show".toList, "more".toList] := by decide +kernel
  have hother : "-dry_run-2 --v, -verbose Show more"
      = reorderedRow.text ["Show".toList, "more".toList] := by decide +kernel
  have hprose : ∀ w ∈ ["Show".toList, "more".toList], IsProse w := by decide
  obtain ⟨⟨flags, hordered, hmem, hread⟩, hsame⟩ := ofText_flagRow verboseRow hprose
  have hflags : flags = ["dry_run-2", "verbose", "v"] := by
    apply Ordered.eq_of_pairwise_of_mem_iff flagBefore_strictOrder (hordered.imp flagBefore_iff.mpr)
    · decide +kernel
    · intro name
      have hnames : verboseRow.names = ["v", "verbose", "v", "dry_run-2"] := by decide +kernel
      rw [hmem, hnames]
      simp only [List.mem_cons]
      tauto
  rw [htext, hother]
  constructor
  · rw [hread, hflags]
    rfl
  · apply hsame
    have hnames : verboseRow.names = ["v", "verbose", "v", "dry_run-2"] := by decide +kernel
    have hothers : reorderedRow.names = ["dry_run-2", "v", "verbose"] := by decide +kernel
    intro name
    rw [hnames, hothers]
    simp only [List.mem_cons]
    tauto

end Candidate

end CommandDoc
