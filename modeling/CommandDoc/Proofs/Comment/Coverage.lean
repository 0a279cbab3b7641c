import CommandDoc.Proofs.Comment.Declaration
import CommandDoc.Proofs.Comment.Scan
import CommandDoc.Proofs.Model.Validity

/-!
# Every line of a comment counts once

Each line of a comment is of one form, and what the comment says is put together from the lines of each form:
help text from the lines of help text, aliases from those of aliases, and parameters from the entries.

Main definitions:

- `LineForm.Fits`: what a line of some form looks like, and what is read from it.
- `Directive.Accounts`: a directive that says what lines of some forms say together.

Main results:

- Theorem `fits_readLine`: a line looks as its form says.
- Theorem `accounts_readComment`: what a comment declares accounts for each of its lines.
-/

namespace CommandDoc

open Text

/-! ## What lines look like -/

namespace LineForm

/-- Text about a parameter: its identifier, alone or in front of a colon or a blank and of the details. -/
def IsEntry (cs : List Char) (name : String) (details : List Char) : Prop :=
  IsIdentifier name.toList ∧
    (cs = name.toList ∧ details = [] ∨
      ∃ c rest, (c = ':' ∨ isBlank c = true) ∧ cs = name.toList ++ c :: rest ∧ details = trimStart rest)

/-- What a line of a form looks like, and what is read from it. -/
def Fits (text : List Char) : LineForm → Prop
  | blank => trim text = []
  | gap => trim text = []
  | declaration _ _ => declarationMarker <:+: text
  | flagsHead => trim text = flagsHeading
  | entry name details =>
    IsEntry (trim text) name details ∨
      ∃ rest, (trim text = "flag ".toList ++ rest ∨ trim text = "param ".toList ++ rest) ∧
        IsEntry (trim rest) name details
  | aliases names =>
    ∃ rest, (trim text = "Aliases:".toList ++ rest ∨ trim text = "aliases:".toList ++ rest) ∧
      names = (nonemptyFields (fun c => c == ',' || c == ';' || isBlank c) rest).map String.ofList
  | help line => line = trim text ∧ trim text ≠ []

end LineForm

theorem Text.eq_append_of_afterExactly? {word cs rest : List Char} (h : afterExactly? word cs = some rest) :
    cs = word ++ rest := by
  induction word generalizing cs with
  | nil =>
    cases cs with
    | nil => simpa [afterWord?] using h
    | cons c cs => simpa [afterWord?] using h
  | cons w word ih =>
    cases cs with
    | nil => simp [afterWord?] at h
    | cons c cs =>
      rw [afterExactly?, afterWord?] at h
      by_cases hc : c = w
      · rw [if_pos (by simpa using hc)] at h
        rw [hc, List.cons_append, ih h]
      · rw [if_neg (by simpa using hc)] at h
        simp at h

namespace LineForm

/-- An entry, as far as the line can be one, looks like an entry. -/
theorem entryOrHelp_eq {cs trimmed : List Char} :
    (∃ name details, entryOrHelp cs trimmed = entry name details ∧ IsEntry cs name details) ∨
      entryOrHelp cs trimmed = help trimmed := by
  unfold entryOrHelp paramLine?
  cases hread : identifier? cs with
  | none => exact Or.inr rfl
  | some found =>
    rcases found with ⟨name, rest⟩
    rcases identifier?_eq_some hread with ⟨hname, hcs⟩
    have hname' : IsIdentifier (String.ofList name).toList := by simpa using hname
    dsimp only [bind, Option.bind]
    cases rest with
    | nil => exact Or.inl ⟨_, _, rfl, hname', Or.inl ⟨by simpa using hcs, rfl⟩⟩
    | cons c rest =>
      by_cases hc : (c == ':' || isBlank c) = true
      · simp only [hc, if_true, Option.getD_some]
        refine Or.inl ⟨_, _, rfl, hname', Or.inr ⟨c, rest, ?_, by simpa using hcs, rfl⟩⟩
        simpa using hc
      · simp [hc]

theorem isEntry_of_argumentLine? {cs : List Char} {form : LineForm} (h : argumentLine? cs = some form) :
    ∃ name details, form = entry name details ∧ IsEntry cs name details := by
  rcases argumentLine?_eq_some_iff.mp h with ⟨name, c, details, hname, hc, rfl, -, rfl⟩
  refine ⟨_, _, rfl, by simpa using hname, Or.inr ⟨':', c :: details, Or.inl rfl, by simp, ?_⟩⟩
  rw [trimStart_cons_blank hc]

/-- A line that declares nothing looks as its form says. -/
theorem fits_ofBody (text : List Char) : Fits text (ofBody (trim text)) := by
  rw [ofBody]
  by_cases hflags : (trim text == "Flags:".toList) = true
  · rw [if_pos hflags]
    exact eq_of_beq hflags
  · rw [if_neg hflags]
    cases hold : (afterExactly? "flag ".toList (trim text)).or (afterExactly? "param ".toList (trim text)) with
    | some rest =>
      have hprefix : trim text = "flag ".toList ++ rest ∨ trim text = "param ".toList ++ rest := by
        rcases Option.or_eq_some_iff.mp hold with hflag | ⟨-, hparam⟩
        · exact Or.inl (eq_append_of_afterExactly? hflag)
        · exact Or.inr (eq_append_of_afterExactly? hparam)
      have hne : trim text ≠ [] := by
        rcases hprefix with h | h
        · simp [h]
        · simp [h]
      dsimp only
      rcases @entryOrHelp_eq (trim rest) (trim text) with ⟨name, details, hform, hentry⟩ | hform
      · rw [hform]
        exact Or.inr ⟨rest, hprefix, hentry⟩
      · rw [hform]
        exact ⟨rfl, hne⟩
    | none =>
      dsimp only
      cases hform : (aliases? (trim text)).or (argumentLine? (trim text)) with
      | some form =>
        dsimp only
        rcases Option.or_eq_some_iff.mp hform with haliases | ⟨-, hargument⟩
        · rcases Option.bind_eq_some_iff.mp haliases with ⟨rest, hrest, hnames⟩
          cases hnames
          refine ⟨rest, ?_, rfl⟩
          rcases Option.or_eq_some_iff.mp hrest with hupper | ⟨-, hlower⟩
          · exact Or.inl (eq_append_of_afterExactly? hupper)
          · exact Or.inr (eq_append_of_afterExactly? hlower)
        · rcases isEntry_of_argumentLine? hargument with ⟨name, details, rfl, hentry⟩
          exact Or.inl hentry
      | none =>
        dsimp only
        by_cases hempty : trim text = []
        · rw [if_pos (by simpa using hempty)]
          exact hempty
        · rw [if_neg (by simpa using hempty)]
          exact ⟨rfl, hempty⟩

theorem fits_ofLine (part : Section) (text : List Char) : Fits text (ofLine part text) := by
  cases part with
  | opening =>
    rw [ofLine]
    cases hread : declaration? (trim text) with
    | none => exact fits_ofBody text
    | some form =>
      rcases declaration?_eq_some hread with ⟨words, description, rfl, -⟩
      by_contra hmarker
      rw [declaration?_trim_eq_none_iff.mpr hmarker] at hread
      simp at hread
  | body => exact fits_ofBody text
  | flags => exact fits_ofBody text

end LineForm

/-- A line looks as its form says, in every part of a comment. -/
theorem fits_readLine (part : Section) (text : List Char) : (readLine part text).1.form.Fits text := by
  cases part with
  | opening => exact LineForm.fits_ofLine .opening text
  | body => exact LineForm.fits_ofLine .body text
  | flags =>
    rw [readLine]
    by_cases hblank : trim text = []
    · rw [if_pos (by simpa using hblank)]
      exact hblank
    · rw [if_neg (by simpa using hblank)]
      split
      · rcases @LineForm.entryOrHelp_eq (trim text) (trim text) with ⟨name, details, hform, hentry⟩ | hform
        · rw [hform]
          exact Or.inl hentry
        · rw [hform]
          exact ⟨rfl, hblank⟩
      · exact LineForm.fits_ofLine .body text

theorem forall₂_fits_readLines (part : Section) (texts : List (List Char)) :
    List.Forall₂ LineForm.Fits texts ((readLines part texts).map (·.form)) := by
  induction texts generalizing part with
  | nil => exact .nil
  | cons text texts ih => exact .cons (fits_readLine part text) (ih _)

/-! ## Declarations -/

namespace LineForm

/-- Whether a form is that of a declaration. -/
def isDeclaration : LineForm → Bool
  | declaration .. => true
  | _ => false

/-- The help text of a line. -/
def helpText? : LineForm → Option (List Char)
  | help text => some text
  | _ => none

end LineForm

/-- Behind the opening part there is no declaration, and in it there is one at most. -/
theorem countP_isDeclaration_readLines (part : Section) (texts : List (List Char)) :
    ((readLines part texts).map (·.form)).countP LineForm.isDeclaration ≤ if part = .opening then 1 else 0 := by
  have hbehind : ∀ {part : Section}, part ≠ .opening → ∀ texts,
      ((readLines part texts).map (·.form)).countP LineForm.isDeclaration = 0 := by
    intro part hpart texts
    rw [List.countP_eq_zero]
    intro form hform hdeclaration
    rcases List.mem_map.mp hform with ⟨line, hline, rfl⟩
    cases hread : line.form with
    | declaration words description =>
      exact not_declaration_of_mem_readLines hpart hline words description hread
    | _ => simp [hread, LineForm.isDeclaration] at hdeclaration
  by_cases hpart : part = .opening
  · subst hpart
    rw [if_pos rfl]
    induction texts with
    | nil => simp [readLines]
    | cons text texts ih =>
      rw [readLines, List.map_cons, List.countP_cons]
      cases hform : (readLine .opening text).1.form with
      | declaration words description =>
        -- The declaration itself ends the opening part.
        have hnext : (readLine .opening text).2 ≠ .opening := by
          have hafter :
              (readLine .opening text).2 = Section.opening.after (readLine .opening text).1.form := rfl
          rw [hafter, hform]
          simp [Section.after]
        simp [hbehind hnext, LineForm.isDeclaration]
      | _ =>
        by_cases hnext : (readLine .opening text).2 = .opening
        · simpa [hnext, LineForm.isDeclaration] using ih
        · simp [hbehind hnext, LineForm.isDeclaration]
  · rw [if_neg hpart, hbehind hpart]

/-! ## Help text -/

/-- What is left of a text without the blanks at its ends is not blank, if anything is. -/
theorem Text.isBlankText_trim {cs : List Char} (h : trim cs ≠ []) : isBlankText (trim cs) = false := by
  rw [isBlankText_eq_false_iff]
  cases hstart : trimStart cs with
  | nil => simp [trim, hstart, trimEnd, dropTail] at h
  | cons c rest =>
    have hc := isBlank_eq_false_of_trimStart_eq hstart
    refine ⟨c, ?_, hc⟩
    rw [trim, hstart, trimEnd_cons hc]
    exact List.mem_cons_self

namespace Directive

/-- Lines of a text with blank lines only between others, and never two in a row. -/
structure IsSpaced (rows : List (List Char)) : Prop where
  /-- The first line is not blank. -/
  head : ∀ row ∈ rows.head?, isBlankText row = false
  /-- The last line is not blank. -/
  last : ∀ row ∈ rows.getLast?, isBlankText row = false
  /-- No two blank lines follow each other. -/
  apart : rows.IsChain fun row next => isBlankText row = false ∨ isBlankText next = false

/-- Help text keeps every line that is not blank. -/
theorem filter_helpLines {forms : List LineForm} (h : ∀ text, .help text ∈ forms → isBlankText text = false)
    (started apart : Bool) :
    (helpLines started apart forms).filter (fun row => !isBlankText row)
      = forms.filterMap LineForm.helpText? := by
  induction forms generalizing started apart with
  | nil => rfl
  | cons form forms ih =>
    have hrest := ih fun text htext => h text (List.mem_cons_of_mem _ htext)
    cases form with
    | help text =>
      have htext := h text List.mem_cons_self
      have hblank : isBlankText [] = true := rfl
      rw [helpLines]
      split
      · simp [htext, hblank, hrest, LineForm.helpText?]
      · simp [htext, hrest, LineForm.helpText?]
    | blank => exact hrest started started
    | _ => exact hrest started apart

/-- Help text is spaced by single blank lines.  A blank line is written out in front of the next line only, so
none ends the text; and before the text has started none is noted, so none opens it. -/
theorem spaced_helpLines {forms : List LineForm} (h : ∀ text, .help text ∈ forms → isBlankText text = false)
    (started apart : Bool) :
    (started = false → apart = false → ∀ row ∈ (helpLines started apart forms).head?, isBlankText row = false) ∧
      (∀ row ∈ (helpLines started apart forms).getLast?, isBlankText row = false) ∧
      (helpLines started apart forms).IsChain fun row next =>
        isBlankText row = false ∨ isBlankText next = false := by
  induction forms generalizing started apart with
  | nil => simp [helpLines]
  | cons form forms ih =>
    have hrest := ih fun text htext => h text (List.mem_cons_of_mem _ htext)
    cases form with
    | help text =>
      have htext := h text List.mem_cons_self
      rcases hrest true false with ⟨-, hlast, hchain⟩
      have hlast' : ∀ row ∈ (text :: helpLines true false forms).getLast?, isBlankText row = false := by
        cases hrows : helpLines true false forms with
        | nil => simpa using htext
        | cons row rows =>
          rw [hrows] at hlast
          rwa [List.getLast?_cons_cons]
      have hchain' := List.isChain_cons.mpr ⟨fun next (_ : next ∈ (helpLines true false forms).head?) =>
        (Or.inl htext : isBlankText text = false ∨ isBlankText next = false), hchain⟩
      rw [helpLines]
      cases apart with
      | false => exact ⟨fun _ _ => by simpa using htext, hlast', hchain'⟩
      | true =>
        rw [if_pos rfl, List.getLast?_cons_cons]
        exact ⟨by simp, hlast', List.isChain_cons.mpr ⟨fun next hnext => Or.inr (by simp_all), hchain'⟩⟩
    | blank =>
      rcases hrest started started with ⟨hhead, hlast, hchain⟩
      exact ⟨fun hstarted _ => hhead hstarted hstarted, hlast, hchain⟩
    | _ => exact hrest started apart

theorem isSpaced_helpLines {forms : List LineForm}
    (h : ∀ text, .help text ∈ forms → isBlankText text = false) : IsSpaced (helpLines false false forms) :=
  have hspaced := spaced_helpLines h false false
  ⟨hspaced.1 rfl rfl, hspaced.2.1, hspaced.2.2⟩

theorem mem_helpLines {forms : List LineForm} {started apart : Bool} {row : List Char}
    (h : row ∈ helpLines started apart forms) : row = [] ∨ .help row ∈ forms := by
  induction forms generalizing started apart with
  | nil => simp [helpLines] at h
  | cons form forms ih =>
    rw [List.mem_cons]
    cases form with
    | help text =>
      rw [helpLines] at h
      split at h
      · rcases List.mem_cons.mp h with rfl | h
        · exact Or.inl rfl
        · rcases List.mem_cons.mp h with rfl | h
          · exact Or.inr (Or.inl rfl)
          · exact (ih h).imp_right Or.inr
      · rcases List.mem_cons.mp h with rfl | h
        · exact Or.inr (Or.inl rfl)
        · exact (ih h).imp_right Or.inr
    | blank =>
      have hrow : row ∈ helpLines started started forms := h
      exact (ih hrow).imp_right Or.inr
    | _ =>
      have hrow : row ∈ helpLines started apart forms := h
      exact (ih hrow).imp_right Or.inr

/-- The lines of the help text. -/
def helpRows (directive : Directive) : List (List Char) :=
  directive.extendedHelp.elim [] fun help => fields (· == '\n') help.toList

/-- The lines of the help text are those it is put together from. -/
theorem helpRows_ofForms {forms : List LineForm} (h : ∀ text, .help text ∈ forms → '\n' ∉ text) :
    (ofForms forms).helpRows = helpLines false false forms := by
  have hrows : ∀ row ∈ helpLines false false forms, '\n' ∉ row := by
    intro row hrow
    rcases mem_helpLines hrow with rfl | htext
    · exact List.not_mem_nil
    · exact h row htext
  rw [helpRows, ofForms]
  by_cases hempty : helpLines false false forms = []
  · simp [hempty]
  · simp [hempty, fields_intercalate hrows hempty]

end Directive

/-! ## Comments -/

/-- No line of a comment holds a line end. -/
theorem not_mem_of_mem_readableLines {raw text : List Char} (h : text ∈ Comment.readableLines raw) :
    '\n' ∉ text := by
  intro hmem
  have hfield := Comment.mem_of_mem_dropEmptyLast h
  simpa using not_sep_of_mem_fields hfield hmem

/-- A directive that says what lines of these forms say together. -/
structure Directive.Accounts (texts : List (List Char)) (forms : List LineForm) (directive : Directive) :
    Prop where
  /-- Each line looks as its form says. -/
  fits : List.Forall₂ LineForm.Fits texts forms
  /-- At most one line is a declaration. -/
  declared : forms.countP LineForm.isDeclaration ≤ 1
  /-- The lines of the help text that are not blank are the lines of help text. -/
  help : directive.helpRows.filter (fun row => !isBlankText row) = forms.filterMap LineForm.helpText?
  /-- Single blank lines stand between lines of the help text, and none at its ends. -/
  spaced : Directive.IsSpaced directive.helpRows
  /-- The aliases are those of all lines of aliases. -/
  aliases : directive.aliases = Directive.aliasNames forms
  /-- The parameters are those of the entries. -/
  keys : ∀ name, name ∈ directive.params.map (·.1) ↔ ∃ details, .entry name details ∈ forms
  /-- No parameter has two values. -/
  nodup : (directive.params.map (·.1)).Nodup
  /-- What is known about a parameter is what its entries say, each over those before it. -/
  values : ∀ name candidate, (name, candidate) ∈ directive.params →
    candidate = Directive.candidateOf (Directive.entriesOf forms) name

/-- A form in which a line is read fits some line. -/
theorem exists_fits_of_mem {texts : List (List Char)} {forms : List LineForm}
    (h : List.Forall₂ LineForm.Fits texts forms) {form : LineForm} (hform : form ∈ forms) :
    ∃ text ∈ texts, form.Fits text := by
  induction h with
  | nil => simp at hform
  | cons hfits _ ih =>
    rcases List.mem_cons.mp hform with rfl | hform
    · exact ⟨_, List.mem_cons_self, hfits⟩
    · rcases ih hform with ⟨text, htext, hfits⟩
      exact ⟨text, List.mem_cons_of_mem _ htext, hfits⟩

theorem accounts_ofForms {texts : List (List Char)} {forms : List LineForm}
    (hfits : List.Forall₂ LineForm.Fits texts forms) (hdeclared : forms.countP LineForm.isDeclaration ≤ 1)
    (hlines : ∀ text ∈ texts, '\n' ∉ text) : (Directive.ofForms forms).Accounts texts forms := by
  have hhelp : ∀ line, .help line ∈ forms → ∃ text ∈ texts, line = trim text ∧ trim text ≠ [] :=
    fun line hline => exists_fits_of_mem hfits hline
  have hvisible : ∀ line, .help line ∈ forms → isBlankText line = false := by
    intro line hline
    rcases hhelp line hline with ⟨text, -, rfl, hne⟩
    exact isBlankText_trim hne
  have hrows : (Directive.ofForms forms).helpRows = Directive.helpLines false false forms := by
    apply Directive.helpRows_ofForms
    intro line hline hmem
    rcases hhelp line hline with ⟨text, htext, rfl, -⟩
    have hstart := (trimEnd_isPrefix (trimStart text)).subset hmem
    exact hlines text htext ((List.dropWhile_suffix isBlank).subset hstart)
  refine ⟨hfits, hdeclared, ?_, ?_, rfl, ?_, ?_, ?_⟩
  · rw [hrows, Directive.filter_helpLines hvisible]
  · rw [hrows]
    exact Directive.isSpaced_helpLines hvisible
  · intro name
    rw [Directive.map_fst_params, Ordered.sortStrings,
      Ordered.mem_sortDistinct Ordered.stringBefore_strictOrder, Directive.mem_map_entriesOf_iff]
  · rw [Directive.map_fst_params]
    exact Ordered.nodup_of_pairwise Ordered.stringBefore_strictOrder
      (Ordered.pairwise_sortDistinct Ordered.stringBefore_strictOrder _)
  · intro name candidate hmem
    exact (Directive.mem_params_iff.mp hmem).2

/-! ## Whole comments -/

/-- A comment is read in at most two steps for each of its lines.  Every line is read once, in order, and is of
one form; the comment says what the lines of each form say. -/
theorem accounts_readComment (function doc : String) :
    ∃ steps ≤ 2 * (Comment.readableLines doc.toList).length, ∃ scan : Scan,
      scan = .run steps { part := .opening, left := Comment.readableLines doc.toList } ∧
        scan.step? = none ∧ scan.read.map (·.text) = Comment.readableLines doc.toList ∧
          (readComment function doc).1.Accounts (Comment.readableLines doc.toList)
            (scan.read.map (·.form)) := by
  have hbound : Scan.bound { part := .opening, left := Comment.readableLines doc.toList }
      ≤ 2 * (Comment.readableLines doc.toList).length := by
    simp [Scan.bound]
  have hcomment : (readComment function doc).1
      = .ofForms ((readLines .opening (Comment.readableLines doc.toList)).map (·.form)) := by
    rw [readComment, commentLines_eq]
  have hlines : ∀ text ∈ Comment.readableLines doc.toList, '\n' ∉ text :=
    fun text htext => not_mem_of_mem_readableLines htext
  rcases Scan.run_eq hbound with ⟨hend, hread⟩
  rw [List.nil_append] at hread
  refine ⟨_, le_refl _, _, rfl, hend, ?_, ?_⟩
  · rw [hread, map_text_readLines]
  · rw [hread, hcomment]
    apply accounts_ofForms (forall₂_fits_readLines .opening _) _ hlines
    exact (countP_isDeclaration_readLines .opening _).trans (by simp)

end CommandDoc
