import CommandDoc.Proofs.Comment.Directive
import CommandDoc.Proofs.Comment.LineForm

/-!
# Comments with other markers and line ends

A comment reads the same with any line ends, and with a marker in front of each line or without.  The two
differ in blank lines at the end at most, which mean nothing.

Main definitions:

- `Comment.marked`: a comment with a marker in front of each line.
- `readText`: what the lines of a comment say.

Main results:

- Theorem `Comment.unifyBreaks_intercalate`: line ends of any kind become line feeds.
- Theorem `Comment.normalizedLines_marked`: markers are taken off, and blanks at line ends.
- Theorem `readText_dropEmptyLast`: an empty line at the end means nothing.
- Theorem `readComment_marked`: a comment reads the same with any line ends and with markers.
-/

namespace CommandDoc

open Text

namespace Comment

/-! ## Line ends -/

/-- The line ends that a text can have. -/
def lineBreaks : List (List Char) :=
  [['\n'], ['\r', '\n'], ['\r']]

/-- Text within a line is left as it is when line breaks are unified. -/
theorem unifyBreaks_append {line : List Char} (h : IsOneLine line) (rest : List Char) :
    unifyBreaks (line ++ rest) = line ++ unifyBreaks rest := by
  induction line with
  | nil => rfl
  | cons c line ih =>
    obtain ⟨⟨-, hreturn⟩, hline⟩ := isOneLine_cons.mp h
    rw [List.cons_append, unifyBreaks.eq_3, ih hline, List.cons_append]
    · intro _ hc
      exact absurd hc hreturn
    · exact hreturn

/-- A carriage return ends a line alone if no line feed follows it. -/
theorem unifyBreaks_break {gap : List Char} (hgap : gap ∈ lineBreaks) (rest : List Char)
    (hrest : gap = ['\r'] → rest.head? ≠ some '\n') :
    unifyBreaks (gap ++ rest) = '\n' :: unifyBreaks rest := by
  simp only [lineBreaks, List.mem_cons, List.not_mem_nil, or_false] at hgap
  rcases hgap with rfl | rfl | rfl
  · rfl
  · rfl
  · rw [List.singleton_append, unifyBreaks.eq_2]
    rintro cs rfl
    exact hrest rfl rfl

/-- Lines joined by carriage returns do not start with a line feed. -/
theorem head?_intercalate_return {lines : List (List Char)} (h : ∀ line ∈ lines, IsOneLine line) :
    (List.intercalate ['\r'] lines).head? ≠ some '\n' := by
  cases lines with
  | nil => simp
  | cons line lines =>
    have hline := h line List.mem_cons_self
    cases line with
    | cons c line =>
      have hc := (isOneLine_cons.mp hline).1.1
      cases lines with
      | nil => simpa using hc
      | cons next lines => simpa using hc
    | nil =>
      cases lines with
      | nil => simp
      | cons next lines => simp

/-- Line ends of any kind become line feeds. -/
theorem unifyBreaks_intercalate {gap : List Char} (hgap : gap ∈ lineBreaks) {lines : List (List Char)}
    (h : ∀ line ∈ lines, IsOneLine line) :
    unifyBreaks (List.intercalate gap lines) = List.intercalate ['\n'] lines := by
  induction lines with
  | nil => rfl
  | cons line lines ih =>
    have hline := h line List.mem_cons_self
    have hlines : ∀ other ∈ lines, IsOneLine other :=
      fun other hother => h other (List.mem_cons_of_mem _ hother)
    cases lines with
    | nil =>
      rw [List.intercalate_singleton, List.intercalate_singleton]
      exact unifyBreaks_eq_self hline.2
    | cons next lines =>
      have hbreak : unifyBreaks (gap ++ List.intercalate gap (next :: lines))
          = '\n' :: unifyBreaks (List.intercalate gap (next :: lines)) := by
        apply unifyBreaks_break hgap
        rintro rfl
        exact head?_intercalate_return hlines
      rw [List.intercalate_cons_cons, List.append_assoc, unifyBreaks_append hline, hbreak, ih hlines,
        List.intercalate_cons_cons, List.append_assoc]
      rfl

/-- The kind of line ends does not show in a normalized comment. -/
theorem normalize_intercalate {gap : List Char} (hgap : gap ∈ lineBreaks) {lines : List (List Char)}
    (h : ∀ line ∈ lines, IsOneLine line) :
    normalize (List.intercalate gap lines) = normalize (List.intercalate ['\n'] lines) := by
  have hfeeds : unifyBreaks (List.intercalate gap lines) = unifyBreaks (List.intercalate ['\n'] lines) :=
    (unifyBreaks_intercalate hgap h).trans (unifyBreaks_intercalate (by decide) h).symm
  rw [normalize, normalizedLines, unfencedLines, hfeeds]
  rfl

/-! ## Markers -/

/-- A line behind a marker. -/
def markLine (line : List Char) : List Char :=
  '/' :: '/' :: ' ' :: line

/-- A marked line is one line, and no part of a block comment. -/
theorem isPlainLine_markLine {line : List Char} (h : IsOneLine line) : IsPlainLine (markLine line) where
  oneLine := by
    simp only [markLine, isOneLine_cons, h, and_true]
    decide
  no_fence := by
    rw [isFence, trim, markLine, trimStart_cons (by decide), trimEnd_cons (by decide),
      trimEnd_cons (by decide)]
    rfl
  no_block := rfl

/-- A marked line is marked. -/
theorem isMarked_markLine (line : List Char) : isMarked (markLine line) = true := by
  rw [isMarked, Bool.or_eq_true]
  exact Or.inr rfl

/-- Dropping the mark gives the line back. -/
theorem dropMarker_markLine (line : List Char) : dropMarker (markLine line) = line := rfl

/-- A marked line is never empty, so none is dropped at the end. -/
theorem dropEmptyLast_map_markLine (lines : List (List Char)) :
    dropEmptyLast (lines.map markLine) = lines.map markLine := by
  induction lines using List.reverseRecOn with
  | nil => rfl
  | append_singleton lines line _ =>
    rw [List.map_append, List.map_singleton, dropEmptyLast_concat, markLine, if_neg (List.cons_ne_nil _ _)]

/-- From lines that all have markers, the markers are taken off, and blanks at the ends. -/
theorem normalizedLines_marked {lines : List (List Char)} (h : ∀ line ∈ lines, IsOneLine line) :
    normalizedLines (List.intercalate ['\n'] (lines.map markLine)) = lines.map trimEnd := by
  have hplain : ∀ line ∈ lines.map markLine, IsPlainLine line := by
    intro line hline
    obtain ⟨inside, hinside, rfl⟩ := List.mem_map.mp hline
    exact isPlainLine_markLine (h inside hinside)
  have hall : (lines.map markLine).all isMarked = true := by
    rw [List.all_map, List.all_eq_true]
    exact fun line _ => isMarked_markLine line
  have hinside : (lines.map markLine).map dropMarker = lines := by
    rw [List.map_map]
    exact (List.map_congr_left fun line _ => dropMarker_markLine line).trans (List.map_id _)
  rw [normalizedLines, unfencedLines_intercalate hplain, dropEmptyLast_map_markLine, hall]
  simp only [if_true, hinside]

/-- A comment with a marker in front of each line. -/
def marked (lines : List String) : String :=
  "\n".intercalate (lines.map ("// " ++ ·))

/-- The marked text is its marked lines, a line feed between any two. -/
theorem toList_marked (lines : List String) :
    (marked lines).toList = List.intercalate ['\n'] ((lines.map String.toList).map markLine) := by
  have hline : ∀ line : String, ("// " ++ line).toList = markLine line.toList := by
    intro line
    rw [String.toList_append]
    rfl
  rw [marked, String.toList_intercalate, List.map_map, List.map_map, Function.comp_def, Function.comp_def]
  simp only [hline]
  rfl

/-- Normalizing a marked text gives its lines without their marks and the blanks at their ends. -/
theorem normalize_marked {lines : List String} (h : ∀ line ∈ lines, IsOneLine line.toList) :
    normalize (marked lines).toList
      = List.intercalate ['\n'] (lines.map fun line => trimEnd line.toList) := by
  rw [toList_marked, normalize, normalizedLines_marked (List.forall_mem_map.mpr h), List.map_map]
  rfl

/-- So the lines that are read from it are those, but for an empty one at the end. -/
theorem readableLines_marked {lines : List String} (h : ∀ line ∈ lines, IsOneLine line.toList) :
    readableLines (marked lines).toList = dropEmptyLast ((lines.map String.toList).map trimEnd) := by
  rw [readableLines, normalize_marked h, textLines_intercalate, List.map_map]
  · rfl
  · intro line hline hfeed
    obtain ⟨whole, hwhole, rfl⟩ := List.mem_map.mp hline
    exact (h whole hwhole).1 ((trimEnd_isPrefix whole.toList).subset hfeed)

end Comment

/-! ## Empty lines at the end -/

/-- What the lines of a text say, and what is wrong with their layout. -/
def readText (function : String) (lines : List (List Char)) : Directive × List Warning :=
  let read := readLines .opening lines
  (Directive.ofForms (read.map (·.form)), styleWarnings function false 1 read)

/-- A comment is read line by line. -/
theorem readComment_eq (function doc : String) :
    readComment function doc = readText function (Comment.readableLines doc.toList) := by
  rw [readComment, readText, commentLines_eq]

/-- An empty line says nothing in any part of a comment. -/
theorem readLines_concat_nil (part : Section) (lines : List (List Char)) :
    ∃ form, (form = .blank ∨ form = .gap) ∧
      readLines part (lines ++ [[]]) = readLines part lines ++ [⟨[], false, form⟩] := by
  induction lines generalizing part with
  | nil =>
    cases part with
    | flags => exact ⟨.gap, Or.inr rfl, rfl⟩
    | opening => exact ⟨.blank, Or.inl rfl, rfl⟩
    | body => exact ⟨.blank, Or.inl rfl, rfl⟩
  | cons line lines ih =>
    obtain ⟨form, hform, hlines⟩ := ih (readLine part line).2
    refine ⟨form, hform, ?_⟩
    rw [List.cons_append, readLines, readLines, hlines, List.cons_append]

namespace Directive

/-- A line without text at the end adds nothing to the help. -/
theorem helpLines_concat {form : LineForm} (hform : form = .blank ∨ form = .gap) (started apart : Bool)
    (forms : List LineForm) : helpLines started apart (forms ++ [form]) = helpLines started apart forms := by
  induction forms generalizing started apart with
  | nil =>
    rcases hform with rfl | rfl
    · rfl
    · rfl
  | cons first forms ih =>
    cases first with
    | help text =>
      rw [List.cons_append, helpLines, helpLines, ih]
    | _ => exact ih _ _

/-- A blank line behind all others says nothing. -/
theorem ofForms_concat {form : LineForm} (hform : form = .blank ∨ form = .gap) (forms : List LineForm) :
    ofForms (forms ++ [form]) = ofForms forms := by
  have hdeclared : declared? (forms ++ [form]) = declared? forms := by
    rw [declared?, List.findSome?_append]
    rcases hform with rfl | rfl
    · exact Option.or_none
    · exact Option.or_none
  have haliases : aliasNames (forms ++ [form]) = aliasNames forms := by
    rw [aliasNames_append]
    rcases hform with rfl | rfl
    · exact List.append_nil _
    · exact List.append_nil _
  have hentries : entriesOf (forms ++ [form]) = entriesOf forms := by
    rw [entriesOf_append]
    rcases hform with rfl | rfl
    · exact List.append_nil _
    · exact List.append_nil _
  rw [ofForms, ofForms, paramEntries_eq, paramEntries_eq, hdeclared, haliases, hentries,
    helpLines_concat hform]

end Directive

/-- A blank line behind all others is good style, also if it stands behind the head of a flags block. -/
theorem styleWarnings_concat {last : CommentLine} (hblank : trim last.text = [])
    (hinside : last.inFlags = false) (hform : last.form ≠ .flagsHead) (function : String) (warned : Bool)
    (number : Nat) (lines : List CommentLine) :
    styleWarnings function warned number (lines ++ [last]) = styleWarnings function warned number lines := by
  have hlast : ∀ warned number, styleWarnings function warned number [last] = [] := by
    intro warned number
    rw [styleWarnings.eq_def]
    simp only [hinside, beq_false_of_ne hform, Bool.false_eq_true, if_false]
    rfl
  induction lines generalizing warned number with
  | nil => exact hlast warned number
  | cons line lines ih =>
    rw [List.cons_append, styleWarnings.eq_def, styleWarnings.eq_def _ _ _ (line :: lines)]
    simp only [ih]
    cases lines with
    | nil =>
      simp only [List.nil_append, hblank, List.isEmpty_nil, if_true]
      rfl
    | cons next lines => rfl

/-- So an empty last line changes nothing that is read. -/
theorem readText_concat_nil (function : String) (lines : List (List Char)) :
    readText function (lines ++ [[]]) = readText function lines := by
  obtain ⟨form, hform, hlines⟩ := readLines_concat_nil .opening lines
  have hhead : form ≠ .flagsHead := by
    rcases hform with rfl | rfl
    · simp
    · simp
  rw [readText, readText, hlines, List.map_append, List.map_singleton, Directive.ofForms_concat hform,
    styleWarnings_concat rfl rfl hhead]

/-- An empty line at the end means nothing. -/
theorem readText_dropEmptyLast (function : String) (lines : List (List Char)) :
    readText function (Comment.dropEmptyLast lines) = readText function lines := by
  induction lines using List.reverseRecOn with
  | nil => rfl
  | append_singleton lines line _ =>
    rw [Comment.dropEmptyLast_concat]
    split
    · next hline => rw [hline, readText_concat_nil]
    · rfl

/-! ## Comments -/

namespace Comment

/-- A line has no marker exactly if it is not blank and does not start with two slashes, after blanks. -/
theorem isMarked_eq_false_iff {line : List Char} :
    isMarked line = false ↔ isBlankText line = false ∧ ¬ ['/', '/'] <+: trimStart line := by
  rw [isMarked, Bool.or_eq_false_iff, afterMarker?, Option.isSome_eq_false_iff, Option.isNone_iff_eq_none,
    afterExactly?_eq_none_iff]

end Comment

/-- It reads the same whether an empty last line is dropped before blanks at line ends are or not. -/
theorem readText_map_trimEnd_dropEmptyLast (function : String) (lines : List (List Char)) :
    readText function ((Comment.dropEmptyLast lines).map trimEnd) = readText function (lines.map trimEnd) := by
  induction lines using List.reverseRecOn with
  | nil => rfl
  | append_singleton lines line _ =>
    rw [Comment.dropEmptyLast_concat]
    split
    · next hline =>
      rw [hline, List.map_append]
      exact (readText_concat_nil function (lines.map trimEnd)).symm
    · rfl

/-- The kind of line break makes no difference. -/
theorem readComment_intercalate {gap : String} (hgap : gap.toList ∈ Comment.lineBreaks) {lines : List String}
    (h : ∀ line ∈ lines, Comment.IsOneLine line.toList) (function : String) :
    readComment function (gap.intercalate lines) = readComment function ("\n".intercalate lines) := by
  have hnormalize := Comment.normalize_intercalate hgap (List.forall_mem_map.mpr h)
  rw [readComment_eq, readComment_eq, Comment.readableLines, Comment.readableLines,
    String.toList_intercalate, String.toList_intercalate, hnormalize]
  rfl

/-- Marking every line makes none either, where the lines are plain and one of them had no mark. -/
theorem readComment_marked_of_isPlainLine {lines : List String}
    (h : ∀ line ∈ lines, Comment.IsPlainLine line.toList)
    (hunmarked : ∃ line ∈ lines, Comment.isMarked line.toList = false) (function : String) :
    readComment function (Comment.marked lines) = readComment function ("\n".intercalate lines) := by
  have hmarked := Comment.readableLines_marked fun line hline => (h line hline).oneLine
  have hplain : Comment.readableLines ("\n".intercalate lines).toList
      = Comment.dropEmptyLast ((Comment.dropEmptyLast (lines.map String.toList)).map trimEnd) := by
    obtain ⟨line, hline, hmarker⟩ := hunmarked
    rw [String.toList_intercalate]
    exact Comment.readableLines_intercalate (List.forall_mem_map.mpr h)
      ⟨line.toList, List.mem_map_of_mem hline, hmarker⟩
  rw [readComment_eq, readComment_eq, hmarked, hplain, readText_dropEmptyLast, readText_dropEmptyLast,
    readText_map_trimEnd_dropEmptyLast]

/-- Lines that are no part of block comments, of which one is not blank and has no marker, read the same with
any line ends, and with a marker in front of each; line numbers are the same, too.  A comment of marked lines
is normalized to these lines without blanks at their ends, whatever they are. -/
theorem readComment_marked :
    (∀ (lines : List String) (function : String),
      (∀ line ∈ lines, Comment.IsPlainLine line.toList) →
      (∃ line ∈ lines, isBlankText line.toList = false ∧ ¬ ['/', '/'] <+: trimStart line.toList) →
        readComment function ("\r\n".intercalate lines) = readComment function ("\n".intercalate lines) ∧
          readComment function ("\r".intercalate lines) = readComment function ("\n".intercalate lines) ∧
          readComment function (Comment.marked lines) = readComment function ("\n".intercalate lines)) ∧
      ∀ lines : List String, (∀ line ∈ lines, Comment.IsOneLine line.toList) →
        Comment.normalize (Comment.marked lines).toList
          = List.intercalate ['\n'] (lines.map fun line => trimEnd line.toList) := by
  constructor
  · rintro lines function hplain ⟨unmarked, hmem, hmarker⟩
    have honeLine : ∀ line ∈ lines, Comment.IsOneLine line.toList :=
      fun line hline => (hplain line hline).oneLine
    refine ⟨?_, ?_, ?_⟩
    · exact readComment_intercalate (by decide) honeLine function
    · exact readComment_intercalate (by decide) honeLine function
    · exact readComment_marked_of_isPlainLine hplain
        ⟨unmarked, hmem, Comment.isMarked_eq_false_iff.mpr hmarker⟩ function
  · intro lines hlines
    exact Comment.normalize_marked hlines

/-- A comment with an entry that spaces indent, and empty lines at the end. -/
def sampleLines : List String :=
  ["Run is a subcommand \x60app run\x60", "", "Flags:", "", "  name: -n the name ", "", ""]

/-- With markers one line more is read, and the warning about the entry is on the same line. -/
theorem readComment_marked_sampleLines :
    (∀ line ∈ sampleLines, Comment.IsPlainLine line.toList) ∧
      (∃ line ∈ sampleLines, isBlankText line.toList = false ∧ ¬ ['/', '/'] <+: trimStart line.toList) ∧
      (Comment.readableLines ("\n".intercalate sampleLines).toList).length = 5 ∧
      (Comment.readableLines (Comment.marked sampleLines).toList).length = 6 ∧
      (readComment "Run" ("\n".intercalate sampleLines)).2 = [spaceWarning "Run" 5] ∧
      readComment "Run" ("\r\n".intercalate sampleLines) = readComment "Run" ("\n".intercalate sampleLines) ∧
      readComment "Run" ("\r".intercalate sampleLines) = readComment "Run" ("\n".intercalate sampleLines) ∧
      readComment "Run" (Comment.marked sampleLines) = readComment "Run" ("\n".intercalate sampleLines) ∧
      String.ofList (Comment.normalize (Comment.marked sampleLines).toList)
        = "Run is a subcommand \x60app run\x60\n\nFlags:\n\n  name: -n the name\n\n" := by
  have hplain : ∀ line ∈ sampleLines, Comment.IsPlainLine line.toList := by decide +kernel
  have hunmarked : ∃ line ∈ sampleLines,
      isBlankText line.toList = false ∧ ¬ ['/', '/'] <+: trimStart line.toList := by
    decide +kernel
  refine ⟨hplain, hunmarked, by decide +kernel, by decide +kernel, by decide +kernel, ?_⟩
  obtain ⟨hcrlf, hcr, hmarked⟩ := readComment_marked.1 sampleLines "Run" hplain hunmarked
  refine ⟨hcrlf, hcr, hmarked, ?_⟩
  rw [readComment_marked.2 sampleLines fun line hline => (hplain line hline).oneLine]
  decide +kernel

end CommandDoc
