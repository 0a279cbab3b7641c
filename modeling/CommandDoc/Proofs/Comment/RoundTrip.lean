import CommandDoc.Proofs.Comment.Directive
import CommandDoc.Proofs.Comment.LineForm
import CommandDoc.Proofs.Comment.Lines

/-!
# Comments that are written and read back

A doc comment is written from a declaration, help text, aliases and entries, each on its own lines.  Reading
it gives all of them back, and finds nothing wrong with its layout.

Main definitions:

- `CommentParts`: what a comment is made of; `CommentParts.text` writes it.
- `CommentParts.WellFormed`: no part can be taken for another one.

Main results:

- Theorem `CommentParts.readableLines_text`: the lines that are read.
- Theorem `CommentParts.readComment_text`: the parts are read back.
-/

namespace CommandDoc

open Text Comment

/-! ## Parts -/

/-- What a doc comment is made of. -/
structure CommentParts where
  /-- The identifier of the function. -/
  function : List Char
  /-- The name of the command and the words behind it. -/
  words : List (List Char)
  /-- The short description. -/
  description : List Char
  /-- The lines of the help text. -/
  help : List (List Char)
  /-- Other names. -/
  aliases : List (List Char)
  /-- The identifiers of parameters, each with the text about it. -/
  entries : List (List Char × List Char)
  deriving Repr, DecidableEq

namespace CommentParts

/-- The line of aliases, if there are any. -/
def aliasLines (parts : CommentParts) : List (List Char) :=
  if parts.aliases = [] then [] else [LineForm.aliasLine parts.aliases]

/-- The lines between the declaration and the flags block. -/
def bodyLines (parts : CommentParts) : List (List Char) :=
  [] :: (parts.help ++ [] :: (parts.aliasLines ++ [[]]))

/-- The lines of the declaration, the body and the head of the flags block. -/
def frontLines (parts : CommentParts) : List (List Char) :=
  LineForm.declarationLine parts.function parts.words parts.description
    :: (parts.bodyLines ++ ["Flags:".toList])

/-- All lines of the comment. -/
def lines (parts : CommentParts) : List (List Char) :=
  parts.frontLines ++ [] :: parts.entries.map fun entry => LineForm.entryLine entry.1 entry.2

/-- The text of the comment. -/
def text (parts : CommentParts) : List Char :=
  List.intercalate ['\n'] parts.lines

/-- Parts of which none can be taken for another one. -/
structure WellFormed (parts : CommentParts) : Prop where
  /-- The function has a name. -/
  function_ne_nil : parts.function ≠ []
  /-- The name of the function holds no blanks and no characters of comment markers. -/
  function_plain : ∀ c ∈ parts.function, isBlank c = false ∧ c ≠ '/' ∧ c ≠ '*'
  /-- The command has a name. -/
  words_ne_nil : parts.words ≠ []
  /-- Words are not empty and hold no blanks and no backquotes. -/
  words_plain : ∀ word ∈ parts.words, word ≠ [] ∧ ∀ c ∈ word, isBlank c = false ∧ c ≠ '\x60'
  /-- There is a description. -/
  description_ne_nil : parts.description ≠ []
  /-- The description is trimmed. -/
  description_trimmed : trim parts.description = parts.description
  /-- The description is one line. -/
  description_line : IsOneLine parts.description
  /-- Lines of help text have no other form. -/
  help_lines : ∀ line ∈ parts.help, IsHelpLine line
  /-- Help text does not start with a blank line. -/
  help_starts : parts.help.head? ≠ some []
  /-- Help text does not end with a blank line. -/
  help_ends : parts.help.getLast? ≠ some []
  /-- No two blank lines of help text follow each other. -/
  help_gaps : parts.help.IsChain fun a b => a ≠ [] ∨ b ≠ []
  /-- Aliases are not empty and hold no blanks, commas and semicolons. -/
  aliases_plain : ∀ name ∈ parts.aliases, name ≠ [] ∧ ∀ c ∈ name, isBlank c = false ∧ c ≠ ',' ∧ c ≠ ';'
  /-- No parameter has two entries. -/
  entries_distinct : (parts.entries.map (·.1)).Nodup
  /-- Entries start with identifiers. -/
  entries_identifier : ∀ entry ∈ parts.entries, IsIdentifier entry.1
  /-- The texts of entries are trimmed. -/
  entries_trimmed : ∀ entry ∈ parts.entries, trim entry.2 = entry.2
  /-- The texts of entries are one line each. -/
  entries_line : ∀ entry ∈ parts.entries, IsOneLine entry.2

end CommentParts

/-! ## Lines that are written -/

/-- A text that neither starts nor ends with a blank is trimmed. -/
theorem trim_eq_self_of_cons {c : Char} {cs rest : List Char} (hcons : cs = c :: rest)
    (hblank : isBlank c = false) (hend : trimEnd cs = cs) : trim cs = cs := by
  refine trim_eq_self_iff.mpr ⟨?_, hend⟩
  rw [hcons, trimStart_cons hblank]

namespace CommentParts

variable {parts : CommentParts}

/-- The line of the declaration is trimmed. -/
theorem WellFormed.trim_declarationLine (h : parts.WellFormed) :
    trim (LineForm.declarationLine parts.function parts.words parts.description)
      = LineForm.declarationLine parts.function parts.words parts.description := by
  obtain ⟨c, rest, hcons⟩ := List.exists_cons_of_ne_nil h.function_ne_nil
  have hblank := (h.function_plain c (by rw [hcons]; exact List.mem_cons_self)).1
  refine trim_eq_self_of_cons (by rw [LineForm.declarationLine, hcons]; rfl) hblank ?_
  have hend := (trim_eq_self_iff.mp h.description_trimmed).2
  have hsplit : LineForm.declarationLine parts.function parts.words parts.description
      = (parts.function ++ ' ' :: ("is a subcommand".toList ++ ' ' :: '\x60' ::
          (List.intercalate [' '] parts.words ++ '\x60' :: ' ' :: "that ".toList))) ++ parts.description := by
    simp only [LineForm.declarationLine, List.append_assoc, List.cons_append]
  rw [hsplit, trimEnd_append _ (by rw [hend]; exact h.description_ne_nil), hend]

/-- It stays as it is when the comment is normalized. -/
theorem WellFormed.isPlainLine_declarationLine (h : parts.WellFormed) :
    IsPlainLine (LineForm.declarationLine parts.function parts.words parts.description) := by
  obtain ⟨c, rest, hcons⟩ := List.exists_cons_of_ne_nil h.function_ne_nil
  obtain ⟨hblank, hslash, hstar⟩ := h.function_plain c (by rw [hcons]; exact List.mem_cons_self)
  have hfunction : IsOneLine parts.function :=
    isOneLine_of_forall_not_isBlank fun c hc => (h.function_plain c hc).1
  have hwords : IsOneLine (List.intercalate [' '] parts.words) :=
    isOneLine_intercalate (by decide) fun word hword =>
      isOneLine_of_forall_not_isBlank fun c hc => ((h.words_plain word hword).2 c hc).1
  refine IsPlainLine.of_head ?_ hslash hstar ?_
  · rw [LineForm.declarationLine, hcons, List.cons_append, trimStart_cons hblank, List.head?_cons]
  · unfold LineForm.declarationLine
    simp only [isOneLine_append, isOneLine_cons]
    exact ⟨hfunction, by decide, by decide, by decide, by decide, hwords, by decide, by decide, by decide,
      h.description_line⟩

/-- The line of aliases is trimmed. -/
theorem WellFormed.trim_aliasLine (h : parts.WellFormed) (hne : parts.aliases ≠ []) :
    trim (LineForm.aliasLine parts.aliases) = LineForm.aliasLine parts.aliases := by
  have hnames : ∀ name ∈ parts.aliases, name ≠ [] := fun name hname => (h.aliases_plain name hname).1
  have hend : trimEnd (List.intercalate ", ".toList parts.aliases) = List.intercalate ", ".toList parts.aliases :=
    trimEnd_intercalate hnames fun name hname =>
      trimEnd_of_forall_not_isBlank fun c hc => ((h.aliases_plain name hname).2 c hc).1
  have hjoined : List.intercalate ", ".toList parts.aliases ≠ [] := intercalate_ne_nil hne hnames
  have hsplit : LineForm.aliasLine parts.aliases
      = "Aliases: ".toList ++ List.intercalate ", ".toList parts.aliases := rfl
  have hcons : LineForm.aliasLine parts.aliases
      = 'A' :: ("liases: ".toList ++ List.intercalate ", ".toList parts.aliases) := rfl
  refine trim_eq_self_of_cons hcons (by decide) ?_
  rw [hsplit, trimEnd_append _ (by rw [hend]; exact hjoined), hend]

/-- It stays as it is when the comment is normalized. -/
theorem WellFormed.isPlainLine_aliasLine (h : parts.WellFormed) :
    IsPlainLine (LineForm.aliasLine parts.aliases) := by
  have haliases : IsOneLine (List.intercalate ", ".toList parts.aliases) :=
    isOneLine_intercalate (by decide) fun name hname =>
      isOneLine_of_forall_not_isBlank fun c hc => ((h.aliases_plain name hname).2 c hc).1
  have hhead : (trimStart (LineForm.aliasLine parts.aliases)).head? = some 'A' := rfl
  refine IsPlainLine.of_head hhead (by decide) (by decide) ?_
  unfold LineForm.aliasLine
  rw [isOneLine_append, isOneLine_cons]
  exact ⟨by decide, by decide, haliases⟩

/-- So do lines of help text. -/
theorem isPlainLine_of_isHelpLine {line : List Char} (h : IsHelpLine line) : IsPlainLine line where
  oneLine := h.oneLine
  no_fence := h.not_fence
  no_block := h.not_block

/-- So do lines of entries. -/
theorem isPlainLine_entryLine {name details : List Char} (hname : IsIdentifier name)
    (hdetails : IsOneLine details) : IsPlainLine (LineForm.entryLine name details) := by
  obtain ⟨c, rest, rfl, hstart, hrest⟩ := hname.exists_cons
  have hchar := LineForm.isIdentifierChar_of_isIdentifierStart hstart
  have hblank := isBlank_eq_false_of_isIdentifierChar hchar
  have hname : IsOneLine (c :: rest) := by
    refine isOneLine_of_forall_not_isBlank ?_
    intro d hd
    rcases List.mem_cons.mp hd with rfl | hd
    · exact hblank
    · exact isBlank_eq_false_of_isIdentifierChar (hrest d hd)
  have hslash : c ≠ '/' := by
    rintro rfl
    exact absurd hchar (by decide)
  have hstar : c ≠ '*' := by
    rintro rfl
    exact absurd hchar (by decide)
  refine IsPlainLine.of_head ?_ hslash hstar ?_
  · rw [LineForm.entryLine, trimStart_cons_blank (by decide), List.cons_append, trimStart_cons hblank,
      List.head?_cons]
  · rw [LineForm.entryLine, isOneLine_cons, isOneLine_append]
    refine ⟨by decide, hname, ?_⟩
    rw [isOneLine_cons, isOneLine_cons]
    exact ⟨by decide, by decide, hdetails⟩

/-- Blanks at the end of a written entry stand behind its colon. -/
theorem trimEnd_entryLine (name details : List Char) :
    trimEnd (LineForm.entryLine name details) = '\t' :: (name ++ ':' :: trimEnd (' ' :: details)) := by
  have hcolon : trimEnd (':' :: ' ' :: details) = ':' :: trimEnd (' ' :: details) :=
    trimEnd_cons (by decide) _
  have hsplit : LineForm.entryLine name details = ('\t' :: name) ++ ':' :: ' ' :: details := rfl
  rw [hsplit, trimEnd_append _ (by rw [hcolon]; exact List.cons_ne_nil _ _), hcolon]
  rfl

/-- A written entry without the tab and blanks at its end. -/
theorem trim_trimEnd_entryLine {name : List Char} (hname : IsIdentifier name) (details : List Char) :
    trim (trimEnd (LineForm.entryLine name details)) = name ++ ':' :: trimEnd (' ' :: details) := by
  obtain ⟨c, rest, rfl, hstart, -⟩ := hname.exists_cons
  have hblank : isBlank c = false :=
    isBlank_eq_false_of_isIdentifierChar (LineForm.isIdentifierChar_of_isIdentifierStart hstart)
  have htab : trimStart (trimEnd (LineForm.entryLine (c :: rest) details))
      = c :: rest ++ ':' :: trimEnd (' ' :: details) := by
    rw [trimEnd_entryLine, trimStart_cons_blank (by decide), List.cons_append, trimStart_cons hblank]
  have hcolon : trimEnd (':' :: trimEnd (' ' :: details)) = ':' :: trimEnd (' ' :: details) := by
    rw [trimEnd_cons (by decide), trimEnd_trimEnd]
  rw [trim, htab, trimEnd_append _ (by rw [hcolon]; exact List.cons_ne_nil _ _), hcolon]

/-! ## Lines that are read -/

/-- There is a line of aliases if there are aliases. -/
theorem mem_aliasLines {line : List Char} :
    line ∈ parts.aliasLines ↔ parts.aliases ≠ [] ∧ line = LineForm.aliasLine parts.aliases := by
  unfold aliasLines
  split
  · next hnil => simp [hnil]
  · next hne => simp [hne]

/-- The lines between the declaration and the flags block are empty, help text or aliases. -/
theorem mem_bodyLines {line : List Char} :
    line ∈ parts.bodyLines ↔ line = [] ∨ line ∈ parts.help ∨ line ∈ parts.aliasLines := by
  simp only [bodyLines, List.mem_cons, List.mem_append, List.not_mem_nil, or_false]
  tauto

/-- The lines in front of the entries are the declaration, those behind it and the head of the flags block. -/
theorem mem_frontLines {line : List Char} :
    line ∈ parts.frontLines ↔
      line = LineForm.declarationLine parts.function parts.words parts.description ∨
        line ∈ parts.bodyLines ∨ line = "Flags:".toList := by
  rw [frontLines, List.mem_cons, List.mem_append, List.mem_singleton]

/-- The lines between the declaration and the flags block are trimmed. -/
theorem WellFormed.trim_bodyLines (h : parts.WellFormed) :
    ∀ line ∈ parts.bodyLines, trim line = line := by
  intro line hline
  rcases mem_bodyLines.mp hline with rfl | hhelp | halias
  · rfl
  · exact (h.help_lines line hhelp).trimmed
  · obtain ⟨hne, rfl⟩ := mem_aliasLines.mp halias
    exact h.trim_aliasLine hne

/-- So are all lines in front of the entries. -/
theorem WellFormed.trim_frontLines (h : parts.WellFormed) :
    ∀ line ∈ parts.frontLines, trim line = line := by
  intro line hline
  rcases mem_frontLines.mp hline with rfl | hbody | rfl
  · exact h.trim_declarationLine
  · exact h.trim_bodyLines line hbody
  · rfl

/-- All lines stay as they are when the comment is normalized. -/
theorem WellFormed.isPlainLine_lines (h : parts.WellFormed) : ∀ line ∈ parts.lines, IsPlainLine line := by
  intro line hline
  rw [lines, List.mem_append, List.mem_cons, List.mem_map, mem_frontLines, mem_bodyLines] at hline
  rcases hline with (rfl | (rfl | hhelp | halias) | rfl) | rfl | ⟨entry, hentry, rfl⟩
  · exact h.isPlainLine_declarationLine
  · exact isPlainLine_nil
  · exact isPlainLine_of_isHelpLine (h.help_lines line hhelp)
  · obtain ⟨-, rfl⟩ := mem_aliasLines.mp halias
    exact h.isPlainLine_aliasLine
  · exact ⟨by decide, by decide, by decide⟩
  · exact isPlainLine_nil
  · exact isPlainLine_entryLine (h.entries_identifier entry hentry) (h.entries_line entry hentry)

/-- The lines of the comment as they are read.  A flags block without entries ends with its head. -/
def shownLines (parts : CommentParts) : List (List Char) :=
  parts.frontLines ++ if parts.entries = [] then []
    else [] :: parts.entries.map fun entry => trimEnd (LineForm.entryLine entry.1 entry.2)

/-- No line of entries is dropped at the end of a comment. -/
theorem dropEmptyLast_entries (front : List (List Char)) {entries : List (List Char × List Char)}
    (hne : entries ≠ []) {write : List Char × List Char → List Char} (hwrite : ∀ entry, write entry ≠ []) :
    dropEmptyLast (front ++ [] :: entries.map write) = front ++ [] :: entries.map write := by
  obtain ⟨before, last, rfl⟩ := (List.eq_nil_or_concat' entries).resolve_left hne
  have hsplit : front ++ [] :: (before ++ [last]).map write
      = (front ++ [] :: before.map write) ++ [write last] := by simp
  rw [hsplit, dropEmptyLast_concat, if_neg (hwrite last)]

/-- The lines that are read. -/
theorem WellFormed.readableLines_text (h : parts.WellFormed) :
    readableLines parts.text = parts.shownLines := by
  have hhead : "Flags:".toList ∈ parts.lines := by
    rw [lines, List.mem_append, mem_frontLines]
    exact Or.inl (Or.inr (Or.inr rfl))
  have hfront : parts.frontLines.map trimEnd = parts.frontLines := by
    rw [List.map_congr_left (g := id), List.map_id]
    intro line hline
    exact (trim_eq_self_iff.mp (h.trim_frontLines line hline)).2
  rw [text, readableLines_intercalate h.isPlainLine_lines ⟨_, hhead, by decide⟩, shownLines, lines]
  -- Without entries the blank line behind the head of the flags block is the last one, and is dropped.
  by_cases hentries : parts.entries = []
  · have hlast : dropEmptyLast parts.frontLines = parts.frontLines := by
      rw [frontLines, ← List.cons_append, dropEmptyLast_concat, if_neg (by decide)]
    rw [if_pos hentries, hentries, List.map_nil, dropEmptyLast_concat, if_pos rfl, hfront, hlast,
      List.append_nil]
  · have hwritten : ∀ entry : List Char × List Char, LineForm.entryLine entry.1 entry.2 ≠ [] :=
      fun _ => List.cons_ne_nil _ _
    have hshown : ∀ entry : List Char × List Char, trimEnd (LineForm.entryLine entry.1 entry.2) ≠ [] := by
      intro entry
      rw [trimEnd_entryLine]
      exact List.cons_ne_nil _ _
    rw [if_neg hentries, dropEmptyLast_entries _ hentries hwritten, List.map_append, hfront, List.map_cons,
      List.map_map]
    exact dropEmptyLast_entries _ hentries hshown

/-! ## Forms that are read -/

/-- The form of the line of aliases, if there are any. -/
def aliasForms (parts : CommentParts) : List LineForm :=
  if parts.aliases = [] then [] else [.aliases (parts.aliases.map String.ofList)]

/-- The forms of the lines of the body. -/
def bodyForms (parts : CommentParts) : List LineForm :=
  .blank :: (parts.help.map Directive.helpForm ++ .blank :: (parts.aliasForms ++ [.blank]))

/-- The entries with the blank line in front of them, if there are any. -/
def blockLines (parts : CommentParts) : List CommentLine :=
  if parts.entries = [] then []
  else ⟨[], false, .gap⟩ :: parts.entries.map fun entry =>
    ⟨trimEnd (LineForm.entryLine entry.1 entry.2), true, .entry (String.ofList entry.1) entry.2⟩

/-- The lines between the declaration and the flags block are read as what they are. -/
theorem WellFormed.map_ofBody_bodyLines (h : parts.WellFormed) :
    parts.bodyLines.map (fun line => LineForm.ofBody (trim line)) = parts.bodyForms := by
  have hblank : LineForm.ofBody (trim []) = .blank := rfl
  have hhelp : parts.help.map (fun line => LineForm.ofBody (trim line))
      = parts.help.map Directive.helpForm := by
    apply List.map_congr_left
    intro line hline
    rw [(h.help_lines line hline).trimmed, LineForm.ofBody_helpLine (h.help_lines line hline),
      Directive.helpForm]
  have haliases : parts.aliasLines.map (fun line => LineForm.ofBody (trim line)) = parts.aliasForms := by
    rw [aliasLines, aliasForms]
    split
    · rfl
    · next hne =>
      rw [List.map_singleton, h.trim_aliasLine hne, LineForm.ofBody_aliasLine h.aliases_plain]
  rw [bodyLines, bodyForms, List.map_cons, List.map_append, List.map_cons, List.map_append,
    List.map_singleton, hblank, hhelp, haliases]

/-- No line of the body ends it. -/
theorem after_of_mem_bodyForms {form : LineForm} (h : form ∈ parts.bodyForms) :
    Section.body.after form = .body ∧ form ≠ .flagsHead := by
  have hhelp : ∀ form ∈ parts.help.map Directive.helpForm,
      Section.body.after form = .body ∧ form ≠ .flagsHead := by
    intro form hform
    obtain ⟨line, -, rfl⟩ := List.mem_map.mp hform
    unfold Directive.helpForm
    split
    · exact ⟨rfl, LineForm.noConfusion⟩
    · exact ⟨rfl, LineForm.noConfusion⟩
  have haliases : ∀ form ∈ parts.aliasForms, Section.body.after form = .body ∧ form ≠ .flagsHead := by
    intro form hform
    unfold aliasForms at hform
    split at hform
    · exact absurd hform List.not_mem_nil
    · rw [List.mem_singleton.mp hform]
      exact ⟨rfl, LineForm.noConfusion⟩
  simp only [bodyForms, List.mem_cons, List.mem_append, List.not_mem_nil, or_false] at h
  rcases h with rfl | h | rfl | h | rfl
  · exact ⟨rfl, LineForm.noConfusion⟩
  · exact hhelp form h
  · exact ⟨rfl, LineForm.noConfusion⟩
  · exact haliases form h
  · exact ⟨rfl, LineForm.noConfusion⟩

/-- The entries are read in the flags block. -/
theorem WellFormed.readLines_entries (h : parts.WellFormed) :
    readLines .flags (if parts.entries = [] then []
      else [] :: parts.entries.map fun entry => trimEnd (LineForm.entryLine entry.1 entry.2))
      = parts.blockLines := by
  unfold blockLines
  split
  · rfl
  · have hindented : ∀ line ∈ parts.entries.map (fun entry => trimEnd (LineForm.entryLine entry.1 entry.2)),
        isIndented line = true ∧ trim line ≠ [] := by
      intro line hline
      obtain ⟨entry, hentry, rfl⟩ := List.mem_map.mp hline
      constructor
      · rw [trimEnd_entryLine]
        rfl
      · rw [trim_trimEnd_entryLine (h.entries_identifier entry hentry)]
        simp
    have hgap : readLine .flags [] = (⟨[], false, .gap⟩, .flags) := rfl
    rw [readLines, hgap, readLines_flags hindented, List.map_map]
    congr 1
    apply List.map_congr_left
    intro entry hentry
    have hname := h.entries_identifier entry hentry
    rw [Function.comp_apply, trim_trimEnd_entryLine hname,
      LineForm.entryOrHelp_entry hname (h.entries_trimmed entry hentry)]

/-- The lines of the comment with their forms. -/
theorem WellFormed.readLines_shownLines (h : parts.WellFormed) :
    readLines .opening parts.shownLines
      = ⟨LineForm.declarationLine parts.function parts.words parts.description, false,
          .declaration (parts.words.map String.ofList) (some (String.ofList parts.description))⟩
        :: (parts.bodyLines.map (fun line => ⟨line, false, LineForm.ofBody (trim line)⟩)
          ++ ⟨"Flags:".toList, false, .flagsHead⟩ :: parts.blockLines) := by
  have hdeclaration : readLine .opening
      (LineForm.declarationLine parts.function parts.words parts.description)
      = (⟨LineForm.declarationLine parts.function parts.words parts.description, false,
          .declaration (parts.words.map String.ofList) (some (String.ofList parts.description))⟩, .body) := by
    have hread := LineForm.declaration?_line (fun c hc => (h.function_plain c hc).1) h.words_plain
      h.description_ne_nil h.description_trimmed
    have hform : LineForm.ofLine .opening
        (LineForm.declarationLine parts.function parts.words parts.description)
        = .declaration (parts.words.map String.ofList) (some (String.ofList parts.description)) := by
      rw [LineForm.ofLine, h.trim_declarationLine, hread, Option.getD_some]
    unfold readLine
    dsimp only
    rw [hform]
    rfl
  have hbody : ∀ line ∈ parts.bodyLines,
      Section.body.after (LineForm.ofBody (trim line)) = .body := by
    intro line hline
    have hmem : LineForm.ofBody (trim line) ∈ parts.bodyForms := by
      rw [← h.map_ofBody_bodyLines]
      exact List.mem_map.mpr ⟨line, hline, rfl⟩
    exact (after_of_mem_bodyForms hmem).1
  have hhead : readLine .body "Flags:".toList = (⟨"Flags:".toList, false, .flagsHead⟩, .flags) := rfl
  rw [shownLines, frontLines, List.cons_append, List.append_assoc, readLines, hdeclaration,
    readLines_body_append hbody, List.singleton_append, readLines, hhead, h.readLines_entries]

/-! ## The directive that is read -/

/-- The forms of the entries. -/
def blockForms (parts : CommentParts) : List LineForm :=
  parts.blockLines.map (·.form)

/-- The forms of the lines behind the help text. -/
def restForms (parts : CommentParts) : List LineForm :=
  .blank :: (parts.aliasForms ++ .blank :: .flagsHead :: parts.blockForms)

/-- A flags block holds entries and blank lines. -/
theorem mem_blockForms {form : LineForm} (h : form ∈ parts.blockForms) :
    form = .gap ∨ ∃ name details, form = .entry name details := by
  rw [blockForms, blockLines] at h
  split at h
  · exact absurd h List.not_mem_nil
  · rw [List.map_cons, List.mem_cons, List.map_map, List.mem_map] at h
    rcases h with rfl | ⟨entry, -, rfl⟩
    · exact Or.inl rfl
    · exact Or.inr ⟨_, _, rfl⟩

/-- Help text holds blank lines and lines of text. -/
theorem mem_helpForms {form : LineForm} (h : form ∈ parts.help.map Directive.helpForm) :
    form = .blank ∨ ∃ text, form = .help text := by
  obtain ⟨line, -, rfl⟩ := List.mem_map.mp h
  unfold Directive.helpForm
  split
  · exact Or.inl rfl
  · exact Or.inr ⟨line, rfl⟩

/-- The help text is what is read from its lines; the forms behind it add nothing to it. -/
theorem WellFormed.helpLines_eq (h : parts.WellFormed) :
    Directive.helpLines false false (parts.help.map Directive.helpForm ++ parts.restForms) = parts.help := by
  refine Directive.helpLines_map_append h.help_gaps h.help_starts h.help_ends ?_
  intro form hform text
  rw [restForms, List.mem_cons, List.mem_append, List.mem_cons, List.mem_cons] at hform
  rcases hform with rfl | hform | rfl | rfl | hform
  · exact LineForm.noConfusion
  · unfold aliasForms at hform
    split at hform
    · exact absurd hform List.not_mem_nil
    · rw [List.mem_singleton.mp hform]
      exact LineForm.noConfusion
  · exact LineForm.noConfusion
  · exact LineForm.noConfusion
  · rcases mem_blockForms hform with rfl | ⟨name, details, rfl⟩
    · exact LineForm.noConfusion
    · exact LineForm.noConfusion

/-- The aliases are what is read from their line. -/
theorem aliasNames_eq (parts : CommentParts) :
    Directive.aliasNames (parts.help.map Directive.helpForm ++ parts.restForms)
      = parts.aliases.map String.ofList := by
  have hhelp : Directive.aliasNames (parts.help.map Directive.helpForm) = [] := by
    apply Directive.aliasNames_eq_nil
    intro form hform names
    rcases mem_helpForms hform with rfl | ⟨text, rfl⟩
    · exact LineForm.noConfusion
    · exact LineForm.noConfusion
  have hblock : Directive.aliasNames parts.blockForms = [] := by
    apply Directive.aliasNames_eq_nil
    intro form hform names
    rcases mem_blockForms hform with rfl | ⟨name, details, rfl⟩
    · exact LineForm.noConfusion
    · exact LineForm.noConfusion
  have hrest : Directive.aliasNames parts.restForms
      = Directive.aliasNames parts.aliasForms ++ Directive.aliasNames parts.blockForms :=
    Directive.aliasNames_append parts.aliasForms (.blank :: .flagsHead :: parts.blockForms)
  rw [Directive.aliasNames_append, hhelp, hrest, hblock, List.append_nil, List.nil_append, aliasForms]
  split
  · next hnil => rw [hnil]; rfl
  · exact List.append_nil _

/-- The entries are what is read from the flags block. -/
theorem entriesOf_eq (parts : CommentParts) :
    Directive.entriesOf (parts.help.map Directive.helpForm ++ parts.restForms)
      = parts.entries.map fun entry => (String.ofList entry.1, entry.2) := by
  have hhelp : Directive.entriesOf (parts.help.map Directive.helpForm) = [] := by
    apply Directive.entriesOf_eq_nil
    intro form hform name details
    rcases mem_helpForms hform with rfl | ⟨text, rfl⟩
    · exact LineForm.noConfusion
    · exact LineForm.noConfusion
  have haliases : Directive.entriesOf parts.aliasForms = [] := by
    unfold aliasForms
    split
    · rfl
    · rfl
  have hrest : Directive.entriesOf parts.restForms
      = Directive.entriesOf parts.aliasForms ++ Directive.entriesOf parts.blockForms :=
    Directive.entriesOf_append parts.aliasForms (.blank :: .flagsHead :: parts.blockForms)
  rw [Directive.entriesOf_append, hhelp, hrest, haliases, List.nil_append, List.nil_append, blockForms,
    blockLines]
  split
  · next hnil => rw [hnil]; rfl
  · rw [List.map_cons, List.map_map, Directive.entriesOf, List.filterMap_cons, List.filterMap_map]
    exact congrFun List.filterMap_eq_map _

/-- Nothing is wrong with the layout of the comment. -/
theorem WellFormed.styleWarnings_eq (h : parts.WellFormed) (function : String) :
    styleWarnings function false 1 (readLines .opening parts.shownLines) = [] := by
  have hplain : ∀ line ∈ (⟨LineForm.declarationLine parts.function parts.words parts.description, false,
      .declaration (parts.words.map String.ofList) (some (String.ofList parts.description))⟩ : CommentLine)
        :: parts.bodyLines.map (fun line => ⟨line, false, LineForm.ofBody (trim line)⟩),
      line.inFlags = false ∧ line.form ≠ .flagsHead := by
    intro line hline
    rcases List.mem_cons.mp hline with rfl | hline
    · exact ⟨rfl, LineForm.noConfusion⟩
    · obtain ⟨text, htext, rfl⟩ := List.mem_map.mp hline
      have hmem : LineForm.ofBody (trim text) ∈ parts.bodyForms := by
        rw [← h.map_ofBody_bodyLines]
        exact List.mem_map.mpr ⟨text, htext, rfl⟩
      exact ⟨rfl, (after_of_mem_bodyForms hmem).2⟩
  rw [h.readLines_shownLines, ← List.cons_append, styleWarnings_append hplain, blockLines]
  split
  · rfl
  · rw [styleWarnings.eq_def]
    refine styleWarnings_eq_nil ?_ function false _
    intro line hline
    rcases List.mem_cons.mp hline with rfl | hline
    · exact ⟨by decide, LineForm.noConfusion⟩
    · obtain ⟨entry, -, rfl⟩ := List.mem_map.mp hline
      rw [trimEnd_entryLine]
      exact ⟨by simp, LineForm.noConfusion⟩

/-- Each line is read as what it was written for. -/
theorem WellFormed.map_form_readLines (h : parts.WellFormed) :
    (readLines .opening parts.shownLines).map (·.form)
      = .declaration (parts.words.map String.ofList) (some (String.ofList parts.description))
        :: .blank :: (parts.help.map Directive.helpForm ++ parts.restForms) := by
  have hbody : (parts.bodyLines.map fun line =>
      (⟨line, false, LineForm.ofBody (trim line)⟩ : CommentLine)).map (·.form) = parts.bodyForms := by
    rw [List.map_map]
    exact h.map_ofBody_bodyLines
  rw [h.readLines_shownLines, List.map_cons, List.map_append, hbody, List.map_cons, ← blockForms, bodyForms,
    restForms]
  simp only [List.cons_append, List.append_assoc, List.nil_append]

/-- These forms say what the comment was written for. -/
theorem WellFormed.ofForms_eq (h : parts.WellFormed) :
    Directive.ofForms
        (.declaration (parts.words.map String.ofList) (some (String.ofList parts.description))
          :: .blank :: (parts.help.map Directive.helpForm ++ parts.restForms))
      = { isCommand := true
          command := (parts.words.map String.ofList).headD ""
          sequence := (parts.words.map String.ofList).tail
          description := some (String.ofList parts.description)
          extendedHelp :=
            if parts.help = [] then none
            else some (String.ofList (List.intercalate ['\n'] parts.help))
          aliases := parts.aliases.map String.ofList
          params := Directive.candidatesOf (parts.entries.map fun entry =>
            (String.ofList entry.1, entry.2)) } := by
  have hhelp : Directive.helpLines false false
      (.declaration (parts.words.map String.ofList) (some (String.ofList parts.description))
        :: .blank :: (parts.help.map Directive.helpForm ++ parts.restForms)) = parts.help := h.helpLines_eq
  have haliases : Directive.aliasNames
      (.declaration (parts.words.map String.ofList) (some (String.ofList parts.description))
        :: .blank :: (parts.help.map Directive.helpForm ++ parts.restForms))
      = parts.aliases.map String.ofList := aliasNames_eq parts
  have hentries : Directive.entriesOf
      (.declaration (parts.words.map String.ofList) (some (String.ofList parts.description))
        :: .blank :: (parts.help.map Directive.helpForm ++ parts.restForms))
      = parts.entries.map fun entry => (String.ofList entry.1, entry.2) := entriesOf_eq parts
  rw [Directive.ofForms, hhelp, haliases, Directive.paramEntries_eq, hentries]
  simp only [List.isEmpty_iff]
  rfl

/-- The parts of a comment are read back, whatever they are, and nothing is wrong with its layout. -/
theorem readComment_text (h : parts.WellFormed) (function : String) :
    ∃ params,
      readComment function (String.ofList parts.text)
          = ({ isCommand := true
               command := (parts.words.map String.ofList).headD ""
               sequence := (parts.words.map String.ofList).tail
               description := some (String.ofList parts.description)
               extendedHelp :=
                if parts.help = [] then none
                else some (String.ofList (List.intercalate ['\n'] parts.help))
               aliases := parts.aliases.map String.ofList
               params := params }, []) ∧
        params.Pairwise (fun a b => a.1 < b.1) ∧
          ∀ name candidate, (name, candidate) ∈ params ↔
            ∃ entry ∈ parts.entries, name = String.ofList entry.1 ∧ candidate = Candidate.ofChars entry.2 := by
  refine ⟨Directive.candidatesOf (parts.entries.map fun entry => (String.ofList entry.1, entry.2)), ?_, ?_, ?_⟩
  · have hlines : commentLines (String.ofList parts.text) = readLines .opening parts.shownLines := by
      rw [commentLines_eq, String.toList_ofList, h.readableLines_text]
    rw [readComment, hlines, h.styleWarnings_eq, h.map_form_readLines, h.ofForms_eq]
  · rw [Directive.candidatesOf, List.pairwise_map]
    exact (Ordered.pairwise_sortDistinct Ordered.stringBefore_strictOrder _).imp of_decide_eq_true
  · intro name candidate
    have hnames : ((parts.entries.map fun entry => (String.ofList entry.1, entry.2)).map (·.1)).Nodup := by
      have hinjective : Function.Injective String.ofList := fun _ _ => String.ofList_injective
      rw [List.map_map]
      have hmap := h.entries_distinct.map hinjective
      rwa [List.map_map] at hmap
    rw [Directive.mem_candidatesOf_iff hnames]
    constructor
    · rintro ⟨details, hmem, rfl⟩
      obtain ⟨entry, hentry, heq⟩ := List.mem_map.mp hmem
      cases heq
      exact ⟨entry, hentry, rfl, rfl⟩
    · rintro ⟨entry, hentry, rfl, rfl⟩
      exact ⟨entry.2, List.mem_map.mpr ⟨entry, hentry, rfl⟩, rfl⟩

end CommentParts

/-- The parts of a comment with help text in two paragraphs, aliases, and an entry without text. -/
def sampleParts : CommentParts where
  function := "Add".toList
  words := ["app".toList, "remote".toList, "add".toList]
  description := "adds a remote".toList
  help := ["Note: names are unique.".toList, [], "// is no marker here".toList]
  aliases := ["new".toList, "create".toList]
  entries := [("name".toList, "@1 the name".toList), ("url".toList, [])]

/-- The parts are read back, help text that looks like a line marker included. -/
theorem readComment_text_sampleParts :
    sampleParts.WellFormed ∧
      (readComment "Add" (String.ofList sampleParts.text)).1.extendedHelp
          = some "Note: names are unique.\n\n// is no marker here" ∧
        (readComment "Add" (String.ofList sampleParts.text)).2 = [] := by
  have hwell : sampleParts.WellFormed :=
    { function_ne_nil := by decide
      function_plain := by simp [sampleParts, isBlank]
      words_ne_nil := by decide
      words_plain := by simp [sampleParts, isBlank]
      description_ne_nil := by decide
      description_trimmed := by decide +kernel
      description_line := by decide +kernel
      help_lines := by decide +kernel
      help_starts := by decide
      help_ends := by decide
      help_gaps := by decide
      aliases_plain := by simp [sampleParts, isBlank]
      entries_distinct := by decide
      entries_identifier := by decide +kernel
      entries_trimmed := by decide +kernel
      entries_line := by decide +kernel }
  have hhelp : (if sampleParts.help = [] then none
      else some (String.ofList (List.intercalate ['\n'] sampleParts.help)))
      = some "Note: names are unique.\n\n// is no marker here" := by
    decide +kernel
  obtain ⟨params, hread, -⟩ := CommentParts.readComment_text hwell "Add"
  rw [hread]
  exact ⟨hwell, hhelp, rfl⟩

end CommandDoc
