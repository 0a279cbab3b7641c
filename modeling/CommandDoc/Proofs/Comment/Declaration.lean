import CommandDoc.Proofs.Comment.Directive
import CommandDoc.Proofs.Comment.LineForm
import CommandDoc.Proofs.Comment.Scan

/-!
# Which comments declare a subcommand

A line is read as a declaration if it holds the marker and stands in the opening part of its comment.  The
first declaration ends the opening part, and so does the head of a flags block, behind which no line is read
as a declaration any more.

Main definitions:

- `LineForm.declarationMarker` and `LineForm.flagsHeading`: the texts that make a line a declaration and the
  head of a flags block.

Main results:

- Theorem `isCommand_readComment_iff`: a comment declares a subcommand exactly if the marker stands in a
  line before the first head of a flags block.
- Theorem `isWord_readComment`: what a comment declares consists of words.
-/

namespace CommandDoc

open Text

namespace LineForm

/-! ## Lines with the marker -/

/-- The text that makes a line a declaration. -/
def declarationMarker : List Char := "is a subcommand".toList

/-- The line that opens a flags block. -/
def flagsHeading : List Char := "Flags:".toList

theorem behindFirst?_eq_none_iff {word cs : List Char} : behindFirst? word cs = none ↔ ¬ word <:+: cs := by
  induction cs with
  | nil => rw [behindFirst?, afterExactly?_eq_none_iff, List.infix_nil, List.prefix_nil]
  | cons c cs ih =>
    rw [behindFirst?, List.infix_cons_iff, not_or, ← afterExactly?_eq_none_iff, ← ih]
    cases afterExactly? word (c :: cs) with
    | none => simp
    | some rest => simp

/-- What is read as a declaration is one, and its words come from the text in backquotes. -/
theorem declaration?_eq_some {cs : List Char} {form : LineForm} (h : declaration? cs = some form) :
    ∃ words description, form = declaration words description ∧ ∀ word ∈ words, IsWord word := by
  rcases Option.bind_eq_some_iff.mp h with ⟨rest, -, hread⟩
  dsimp only at hread
  split at hread
  · cases hread
    exact ⟨_, _, rfl, fun word hword => isWord_of_mem_words hword⟩
  · cases hread
    exact ⟨[], _, rfl, by simp⟩

theorem declaration?_eq_none_iff {cs : List Char} :
    declaration? cs = none ↔ ¬ declarationMarker <:+: cs := by
  rw [← behindFirst?_eq_none_iff]
  constructor
  · intro h
    rw [Option.eq_none_iff_forall_ne_some]
    intro rest hrest
    have hread := Option.bind_eq_none_iff.mp h rest hrest
    dsimp only at hread
    split at hread <;> cases hread
  · intro h
    apply Option.bind_eq_none_iff.mpr
    intro rest hrest
    cases h.symm.trans hrest

/-- Blanks around a line do not matter to the marker. -/
theorem declarationMarker_infix_trim_iff {line : List Char} :
    declarationMarker <:+: trim line ↔ declarationMarker <:+: line := by
  apply infix_trim_iff
  · decide +kernel
  · decide +kernel

theorem declaration?_trim_eq_none_iff {line : List Char} :
    declaration? (trim line) = none ↔ ¬ declarationMarker <:+: line := by
  rw [declaration?_eq_none_iff, declarationMarker_infix_trim_iff]

/-! ## Lines that declare nothing -/

theorem entryOrHelp_cases (cs trimmed : List Char) :
    (∃ name details, entryOrHelp cs trimmed = entry name details) ∨
      entryOrHelp cs trimmed = help trimmed := by
  unfold entryOrHelp paramLine?
  cases identifier? cs with
  | none => simp
  | some found =>
    dsimp only [bind, Option.bind]
    split
    · exact Or.inl ⟨_, _, rfl⟩
    · split
      · exact Or.inl ⟨_, _, rfl⟩
      · exact Or.inr rfl

/-- A line that declares nothing and opens no flags block is an entry, a line of aliases, blank or help
text. -/
theorem ofBody_cases {cs : List Char} (h : cs ≠ flagsHeading) :
    (∃ name details, ofBody cs = entry name details) ∨ (∃ names, ofBody cs = aliases names) ∨
      ofBody cs = blank ∨ ofBody cs = help cs := by
  have hhead : (cs == "Flags:".toList) = false := beq_false_of_ne h
  rw [ofBody, hhead, if_neg Bool.false_ne_true]
  split
  · next rest _ =>
    rcases entryOrHelp_cases (trim rest) cs with hentry | hhelp
    · exact Or.inl hentry
    · exact Or.inr (Or.inr (Or.inr hhelp))
  · split
    · next form hform =>
      rcases Option.or_eq_some_iff.mp hform with hform | ⟨-, hform⟩
      · unfold aliases? at hform
        rcases Option.bind_eq_some_iff.mp hform with ⟨rest, -, hnames⟩
        cases hnames
        exact Or.inr (Or.inl ⟨_, rfl⟩)
      · rcases argumentLine?_eq_some_iff.mp hform with ⟨name, c, details, -, -, -, -, rfl⟩
        exact Or.inl ⟨_, _, rfl⟩
    · by_cases hempty : cs.isEmpty = true
      · simp [hempty]
      · simp [hempty]

theorem ofBody_ne_declaration (cs : List Char) (words : List String) (description : Option String) :
    ofBody cs ≠ declaration words description := by
  by_cases hflags : cs = flagsHeading
  · subst hflags
    intro h
    cases h
  · rcases ofBody_cases hflags with ⟨_, _, h⟩ | ⟨_, h⟩ | h | h <;> simp [h]

theorem after_ofBody (part : Section) {cs : List Char} (h : cs ≠ flagsHeading) :
    part.after (ofBody cs) = part := by
  rcases ofBody_cases h with ⟨_, _, h⟩ | ⟨_, h⟩ | h | h <;> simp [h, Section.after]

/-- Only a line with the marker is read as a declaration, and only in the opening part. -/
theorem ofLine_eq_declaration {part : Section} {text : List Char} {words : List String}
    {description : Option String} (h : ofLine part text = declaration words description) :
    part = .opening ∧ declaration? (trim text) = some (declaration words description) := by
  cases part with
  | opening =>
    rw [ofLine] at h
    cases hread : declaration? (trim text) with
    | none => exact absurd (by simpa [hread] using h) (ofBody_ne_declaration _ _ _)
    | some form => exact ⟨rfl, by simpa [hread] using h⟩
  | body => exact absurd h (ofBody_ne_declaration _ _ _)
  | flags => exact absurd h (ofBody_ne_declaration _ _ _)

end LineForm

/-! ## Lines one after the other -/

/-- A line that is read as a declaration stands in the opening part. -/
theorem readLine_eq_declaration {part : Section} {text : List Char} {words : List String}
    {description : Option String} (h : (readLine part text).1.form = .declaration words description) :
    part = .opening ∧ LineForm.declaration? (trim text) = some (.declaration words description) := by
  cases part with
  | opening => exact LineForm.ofLine_eq_declaration h
  | body => exact LineForm.ofLine_eq_declaration h
  | flags =>
    rw [readLine] at h
    split at h
    · cases h
    · split at h
      · rcases LineForm.entryOrHelp_cases (trim text) (trim text) with ⟨_, _, hform⟩ | hform
        · simp [hform] at h
        · simp [hform] at h
      · exact absurd h (LineForm.ofBody_ne_declaration _ _ _)

/-- Nothing leads back to the opening part. -/
theorem readLine_ne_opening {part : Section} (h : part ≠ .opening) (text : List Char) :
    (readLine part text).2 ≠ .opening := by
  have hafter : ∀ form, Section.body.after form ≠ .opening := by
    intro form
    cases form <;> simp [Section.after]
  cases part with
  | opening => exact absurd rfl h
  | body => exact hafter _
  | flags =>
    rw [readLine]
    by_cases hblank : (trim text).isEmpty = true
    · simp [hblank]
    · by_cases hindented : isIndented text = true
      · simp [hblank, hindented]
      · simpa [hblank, hindented] using hafter _

/-- Behind the opening part no line is read as a declaration. -/
theorem not_declaration_of_mem_readLines {part : Section} (hpart : part ≠ .opening)
    {texts : List (List Char)} {line : CommentLine} (h : line ∈ readLines part texts)
    (words : List String) (description : Option String) : line.form ≠ .declaration words description := by
  induction texts generalizing part with
  | nil => simp [readLines] at h
  | cons text texts ih =>
    rcases List.mem_cons.mp h with rfl | h
    · exact fun hform => hpart (readLine_eq_declaration hform).1
    · exact ih (readLine_ne_opening hpart text) h

/-- A line is read as a declaration exactly if the marker stands in a line before the first head of a flags
block. -/
theorem exists_declaration_readLines_iff {texts : List (List Char)} :
    (∃ line ∈ readLines .opening texts, ∃ words description, line.form = .declaration words description) ↔
      ∃ text ∈ texts.takeWhile (fun text => trim text ≠ LineForm.flagsHeading),
        LineForm.declarationMarker <:+: text := by
  induction texts with
  | nil => simp [readLines]
  | cons text texts ih =>
    have hline : readLine .opening text
        = (⟨text, false, .ofLine .opening text⟩, Section.opening.after (.ofLine .opening text)) := rfl
    rw [readLines, hline]
    by_cases hmarked : LineForm.declarationMarker <:+: text
    · -- The line declares, and it is no head, as the marker is no part of one.
      have hhead : trim text ≠ LineForm.flagsHeading := by
        intro hhead
        rw [← LineForm.declarationMarker_infix_trim_iff, hhead] at hmarked
        exact absurd hmarked (by decide +kernel)
      rcases Option.ne_none_iff_exists'.mp
        (mt LineForm.declaration?_trim_eq_none_iff.mp (not_not.mpr hmarked)) with ⟨form, hform⟩
      rcases LineForm.declaration?_eq_some hform with ⟨words, description, rfl, -⟩
      apply iff_of_true
      · exact ⟨_, List.mem_cons_self, words, description, by simp [LineForm.ofLine, hform]⟩
      · exact ⟨text, by simp [hhead], hmarked⟩
    · have hform : LineForm.ofLine .opening text = .ofBody (trim text) := by
        rw [LineForm.ofLine, LineForm.declaration?_trim_eq_none_iff.mpr hmarked, Option.getD_none]
      by_cases hhead : trim text = LineForm.flagsHeading
      · have hbody : LineForm.ofBody LineForm.flagsHeading = .flagsHead := rfl
        apply iff_of_false
        · rintro ⟨line, hmem, words, description, hdeclaration⟩
          rw [hform, hhead, hbody] at hmem
          rcases List.mem_cons.mp hmem with rfl | hmem
          · cases hdeclaration
          · exact not_declaration_of_mem_readLines (by simp [Section.after]) hmem _ _ hdeclaration
        · simp [hhead]
      · rw [hform, LineForm.after_ofBody _ hhead, List.takeWhile_cons_of_pos (by simpa using hhead)]
        simp only [List.exists_mem_cons_iff, ih, hmarked, false_or]
        apply or_iff_right
        rintro ⟨words, description, hdeclaration⟩
        exact LineForm.ofBody_ne_declaration _ _ _ hdeclaration

/-! ## Comments -/

theorem Directive.declared?_eq_some {forms : List LineForm} {words : List String}
    {description : Option String} (h : Directive.declared? forms = some (words, description)) :
    .declaration words description ∈ forms := by
  rcases List.exists_of_findSome?_eq_some h with ⟨form, hmem, hform⟩
  cases form with
  | declaration words description =>
    cases hform
    exact hmem
  | _ => cases hform

/-- A comment declares a subcommand exactly if one of its lines is read as a declaration. -/
theorem Directive.isCommand_ofForms_iff {forms : List LineForm} :
    (Directive.ofForms forms).isCommand = true ↔
      ∃ words description, .declaration words description ∈ forms := by
  change (Directive.declared? forms).isSome = true ↔ _
  constructor
  · intro h
    rcases Option.isSome_iff_exists.mp h with ⟨⟨words, description⟩, hfound⟩
    exact ⟨words, description, Directive.declared?_eq_some hfound⟩
  · rintro ⟨words, description, hmem⟩
    exact List.findSome?_isSome_iff.mpr ⟨_, hmem, rfl⟩

/-- A comment declares a subcommand exactly if the marker stands in a line before the first head of a flags
block.  In a line behind one it is not found, whether or not the block has ended. -/
theorem isCommand_readComment_iff (function doc : String) :
    (readComment function doc).1.isCommand = true ↔
      ∃ line ∈ (Comment.readableLines doc.toList).takeWhile (fun line => trim line ≠ LineForm.flagsHeading),
        LineForm.declarationMarker <:+: line := by
  rw [← exists_declaration_readLines_iff, readComment, Directive.isCommand_ofForms_iff]
  simp only [List.mem_map, commentLines_eq]
  constructor
  · rintro ⟨words, description, line, hmem, hform⟩
    exact ⟨line, hmem, words, description, hform⟩
  · rintro ⟨line, hmem, words, description, hform⟩
    exact ⟨words, description, line, hmem, hform⟩

/-- A comment in which the flags block comes first. -/
def flagsFirstComment : String :=
  "Flags:\n\n\tname: -n the name\nAdd is a subcommand \x60app add\x60 that adds"

/-- Behind a flags block the marker is not found in a line without indentation. -/
theorem isCommand_readComment_flagsFirst :
    (∃ line ∈ Comment.readableLines flagsFirstComment.toList,
        isIndented line = false ∧ LineForm.declarationMarker <:+: line) ∧
      (readComment "Add" flagsFirstComment).1.isCommand = false := by
  refine ⟨by decide +kernel, ?_⟩
  rw [← Bool.not_eq_true, isCommand_readComment_iff]
  decide +kernel

/-! ## Declared words -/

/-- The words of a declaration are words. -/
theorem isWord_of_mem_readLines {part : Section} {texts : List (List Char)} {line : CommentLine}
    (h : line ∈ readLines part texts) {words : List String} {description : Option String}
    (hform : line.form = .declaration words description) : ∀ word ∈ words, IsWord word := by
  induction texts generalizing part with
  | nil => simp [readLines] at h
  | cons text texts ih =>
    rcases List.mem_cons.mp h with rfl | h
    · rcases LineForm.declaration?_eq_some (readLine_eq_declaration hform).2 with ⟨_, _, heq, hwords⟩
      cases heq
      exact hwords
    · exact ih h

theorem Directive.isWord_ofForms {forms : List LineForm}
    (h : ∀ words description, .declaration words description ∈ forms → ∀ word ∈ words, IsWord word) :
    ((Directive.ofForms forms).command ≠ "" → IsWord (Directive.ofForms forms).command) ∧
      ∀ word ∈ (Directive.ofForms forms).sequence, IsWord word := by
  have hwords : ∀ word ∈ ((Directive.declared? forms).map (·.1)).getD [], IsWord word := by
    cases hdeclared : Directive.declared? forms with
    | none => simp
    | some declared => exact h _ _ (Directive.declared?_eq_some hdeclared)
  rw [Directive.ofForms]
  dsimp only
  cases hdeclared : ((Directive.declared? forms).map (·.1)).getD [] with
  | nil => simp
  | cons word words =>
    rw [hdeclared] at hwords
    refine ⟨fun _ => hwords word List.mem_cons_self, ?_⟩
    exact fun other hother => hwords other (List.mem_cons_of_mem _ hother)

/-- The name of the command and the words behind it are words, if the comment gives any. -/
theorem isWord_readComment (function doc : String) :
    ((readComment function doc).1.command ≠ "" → IsWord (readComment function doc).1.command) ∧
      ∀ word ∈ (readComment function doc).1.sequence, IsWord word := by
  rw [readComment]
  apply Directive.isWord_ofForms
  intro words description hmem
  rcases List.mem_map.mp hmem with ⟨line, hline, hform⟩
  rw [commentLines_eq] at hline
  exact isWord_of_mem_readLines hline hform

end CommandDoc
