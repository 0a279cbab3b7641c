import CommandDoc.Comment.Directive
import CommandDoc.Proofs.Comment.Lines

/-!
# Single forms of lines

How a line is written that is read as a declaration, as help text, as aliases or as an entry.

Main definitions:

- `IsIdentifier`: an ASCII identifier.
- `IsHelpLine`: a line that is read as help text or as a blank line.

Main results:

- Theorem `LineForm.declaration?_line`: a written declaration is read back.
- Theorem `LineForm.ofBody_helpLine`: help text is read as help text.
- Theorem `LineForm.ofBody_aliasLine`: written aliases are read back.
- Theorem `LineForm.entryOrHelp_entry`: a written entry is read back.
-/

namespace CommandDoc

open Text

/-! ## Words at the start of a text -/

/-- A word is not cut off exactly if the text does not start with it. -/
theorem Text.afterExactly?_eq_none_iff {word cs : List Char} :
    afterExactly? word cs = none ↔ ¬ word <+: cs := by
  induction word generalizing cs with
  | nil => simp [afterWord?]
  | cons w word ih =>
    cases cs with
    | nil => simp [afterWord?]
    | cons c cs =>
      rw [List.cons_prefix_cons, afterExactly?, afterWord?]
      by_cases hc : c = w
      · rw [if_pos (by simpa using hc)]
        simpa [hc] using ih
      · rw [if_neg (by simpa using hc)]
        simp [Ne.symm hc]

/-! ## Identifiers -/

theorem isBlank_eq_false_of_isIdentifierChar {c : Char} (h : LineForm.isIdentifierChar c = true) :
    isBlank c = false := by
  unfold LineForm.isIdentifierChar Char.isAlphanum Char.isAlpha Char.isUpper Char.isLower Char.isDigit at h
  simp only [Bool.or_eq_true, beq_iff_eq, Bool.and_eq_true, decide_eq_true_eq, UInt32.le_iff_toNat_le,
    ge_iff_le] at h
  change (((65 ≤ c.toNat ∧ c.toNat ≤ 90) ∨ (97 ≤ c.toNat ∧ c.toNat ≤ 122)) ∨
    (48 ≤ c.toNat ∧ c.toNat ≤ 57)) ∨ c = '_' at h
  rcases h with hrange | rfl
  · simp only [isBlank, Bool.or_eq_false_iff, beq_eq_false_iff_ne, Bool.and_eq_false_iff,
      decide_eq_false_iff_not]
    omega
  · decide

theorem isBlank_eq_false_of_isAlphanum {c : Char} (h : c.isAlphanum = true) : isBlank c = false :=
  isBlank_eq_false_of_isIdentifierChar (by rw [LineForm.isIdentifierChar, h, Bool.true_or])

/-- An identifier of ASCII letters, digits and underscores that does not start with a digit. -/
def IsIdentifier : List Char → Prop
  | [] => False
  | c :: rest => LineForm.isIdentifierStart c = true ∧ ∀ d ∈ rest, LineForm.isIdentifierChar d = true

theorem isIdentifier_cons_iff {c : Char} {rest : List Char} :
    IsIdentifier (c :: rest) ↔
      LineForm.isIdentifierStart c = true ∧ rest.all LineForm.isIdentifierChar = true := by
  rw [IsIdentifier, List.all_eq_true]

instance : DecidablePred IsIdentifier
  | [] => inferInstanceAs (Decidable False)
  | _ :: _ => decidable_of_iff _ isIdentifier_cons_iff.symm

theorem IsIdentifier.exists_cons {cs : List Char} (h : IsIdentifier cs) :
    ∃ c rest, cs = c :: rest ∧ LineForm.isIdentifierStart c = true ∧
      ∀ d ∈ rest, LineForm.isIdentifierChar d = true := by
  cases cs with
  | nil => exact h.elim
  | cons c rest => exact ⟨c, rest, rfl, h⟩

namespace LineForm

theorem isIdentifierChar_of_isIdentifierStart {c : Char} (h : isIdentifierStart c = true) :
    isIdentifierChar c = true := by
  rw [isIdentifierStart, Bool.or_eq_true] at h
  rw [isIdentifierChar, Char.isAlphanum, Bool.or_eq_true, Bool.or_eq_true]
  exact h.elim (fun h => Or.inl (Or.inl h)) Or.inr

/-- An identifier is read up to a character that cannot belong to it. -/
theorem identifier?_append {name : List Char} (hname : IsIdentifier name) {c : Char}
    (hc : isIdentifierChar c = false) (rest : List Char) :
    identifier? (name ++ c :: rest) = some (name, c :: rest) := by
  obtain ⟨d, ds, rfl, hstart, hrest⟩ := hname.exists_cons
  have hstop : ∀ e ∈ (c :: rest).head?, isIdentifierChar e = false := by simpa using hc
  rw [List.cons_append, identifier?, if_pos hstart, takeWhile_append_of_head? hrest hstop,
    dropWhile_append_of_head? hrest hstop]

/-- What is read is an identifier, and the rest stands behind it. -/
theorem identifier?_eq_some {cs name rest : List Char} (h : identifier? cs = some (name, rest)) :
    IsIdentifier name ∧ cs = name ++ rest := by
  cases cs with
  | nil => cases h
  | cons c cs =>
    rw [identifier?] at h
    split at h
    · next hstart =>
      cases h
      refine ⟨⟨hstart, fun d hd => List.mem_takeWhile_imp hd⟩, ?_⟩
      rw [List.cons_append, List.takeWhile_append_dropWhile]
    · cases h

/-! ## Declarations -/

/-- The words of a declaration, in backquotes behind the marker, and the description behind `that`. -/
def declarationLine (function : List Char) (words : List (List Char)) (description : List Char) :
    List Char :=
  function ++ ' ' :: ("is a subcommand".toList ++ ' ' :: '\x60' :: (List.intercalate [' '] words
    ++ '\x60' :: ' ' :: ("that ".toList ++ description)))

/-- The marker of a declaration is found behind a word without blanks. -/
theorem behindFirst?_marker {function : List Char} (h : ∀ c ∈ function, isBlank c = false)
    (rest : List Char) :
    behindFirst? "is a subcommand".toList (function ++ ' ' :: ("is a subcommand".toList ++ rest))
      = some rest := by
  induction function with
  | nil =>
    have hspace : afterExactly? "is a subcommand".toList (' ' :: ("is a subcommand".toList ++ rest)) = none :=
      rfl
    have hfound : afterExactly? "is a subcommand".toList ('i' :: ("s a subcommand".toList ++ rest))
        = some rest := afterExactly?_append "is a subcommand".toList rest
    have hword : "is a subcommand".toList ++ rest = 'i' :: ("s a subcommand".toList ++ rest) := rfl
    rw [List.nil_append, behindFirst?, hspace, hword]
    dsimp only
    rw [behindFirst?, hfound]
  | cons c function ih =>
    -- The marker holds a blank as its third character, and behind the word it would have to hold another.
    have hnone : afterExactly? "is a subcommand".toList
        (c :: (function ++ ' ' :: ("is a subcommand".toList ++ rest))) = none := by
      rcases function with _ | ⟨d, _ | ⟨e, function⟩⟩
      · simp [afterWord?]
      · simp [afterWord?]
      · have he : e ≠ ' ' := by
          rintro rfl
          exact absurd (h ' ' (by simp)) (by decide)
        simp [afterWord?, he]
    rw [List.cons_append, behindFirst?, hnone]
    exact ih fun d hd => h d (List.mem_cons_of_mem _ hd)

/-- Text between two back quotes is read up to the second one. -/
theorem backquoted?_append {inside : List Char} (h : '\x60' ∉ inside) (rest : List Char) :
    backquoted? ('\x60' :: (inside ++ '\x60' :: rest)) = some (inside, rest) := by
  have hinside : ∀ c ∈ inside, (c != '\x60') = true := by
    intro c hc
    rw [bne_iff_ne]
    rintro rfl
    exact h hc
  have hstop : ∀ c ∈ ('\x60' :: rest).head?, (c != '\x60') = false := by simp
  rw [backquoted?, dropWhile_append_of_head? hinside hstop, takeWhile_append_of_head? hinside hstop]

/-- A description behind `that` is read back. -/
theorem shortDescription?_that {description : List Char} (hne : description ≠ [])
    (htrim : trim description = description) :
    shortDescription? (' ' :: ("that ".toList ++ description)) = some (String.ofList description) := by
  obtain ⟨hstart, hend⟩ := trim_eq_self_iff.mp htrim
  have hwhole : trim (' ' :: ("that ".toList ++ description)) = "that ".toList ++ description := by
    have hstart' : trimStart (' ' :: ("that ".toList ++ description)) = "that ".toList ++ description := rfl
    rw [trim, hstart', trimEnd_append _ (by rw [hend]; exact hne), hend]
  rw [shortDescription?, hwhole, afterExactly?_append, Option.some_or, Option.getD_some, htrim]
  exact if_neg (by simpa using hne)

/-- A written declaration is read back. -/
theorem declaration?_line {function : List Char} {words : List (List Char)} {description : List Char}
    (hfunction : ∀ c ∈ function, isBlank c = false)
    (hwords : ∀ word ∈ words, word ≠ [] ∧ ∀ c ∈ word, isBlank c = false ∧ c ≠ '\x60')
    (hne : description ≠ []) (htrim : trim description = description) :
    declaration? (declarationLine function words description)
      = some (declaration (words.map String.ofList) (some (String.ofList description))) := by
  have hquote : '\x60' ∉ List.intercalate [' '] words := by
    refine not_mem_intercalate (by decide) ?_
    intro word hword hmem
    exact ((hwords word hword).2 _ hmem).2 rfl
  have hread : Text.words (List.intercalate [' '] words) = words := by
    refine nonemptyFields_intercalate (List.forall_mem_singleton.mpr rfl) (by decide) ?_
    intro word hword
    exact ⟨(hwords word hword).1, fun c hc => ((hwords word hword).2 c hc).1⟩
  have hstart : ∀ cs, trimStart (' ' :: '\x60' :: cs) = '\x60' :: cs := fun _ => rfl
  rw [declaration?, declarationLine, behindFirst?_marker hfunction]
  dsimp only [bind, Option.bind]
  rw [hstart, backquoted?_append hquote]
  dsimp only
  rw [hread, shortDescription?_that hne htrim]

/-! ## Help text -/

end LineForm

/-- A line of help text: it is trimmed, holds no line end, and has none of the other forms. -/
structure IsHelpLine (line : List Char) : Prop where
  /-- It is trimmed. -/
  trimmed : trim line = line
  /-- It holds no line end. -/
  oneLine : Comment.IsOneLine line
  /-- It is not the head of a flags block. -/
  not_head : line ≠ "Flags:".toList
  /-- It does not start as an old entry of a flag. -/
  not_flag : ¬ "flag ".toList <+: line
  /-- It does not start as an old entry of a parameter. -/
  not_param : ¬ "param ".toList <+: line
  /-- It does not start as a line of aliases. -/
  not_aliases : ¬ "Aliases:".toList <+: line ∧ ¬ "aliases:".toList <+: line
  /-- It is not an identifier with a colon and a text with a marker of an argument. -/
  not_argument : ∀ name c details, IsIdentifier name → isBlank c = true →
    line = name ++ ':' :: c :: details → Marker.hasArgumentMarker (trimStart details) = false
  /-- It is not the start or the end of a block comment. -/
  not_fence : Comment.isFence line = false
  /-- It is not a block comment. -/
  not_block : Comment.blockInside? line = none

namespace LineForm

/-- A line of help names no aliases. -/
theorem aliases?_eq_none {line : List Char} (h : IsHelpLine line) : aliases? line = none := by
  rw [aliases?, afterExactly?_eq_none_iff.mpr h.not_aliases.1, afterExactly?_eq_none_iff.mpr h.not_aliases.2]
  rfl

/-- A line is an entry by its marker exactly if an identifier, a colon and a blank stand in front of a text with a
marker.  Such a line is never refused: the identifier is its name, and the text is about it. -/
theorem argumentLine?_eq_some_iff {line : List Char} {form : LineForm} :
    argumentLine? line = some form ↔ ∃ name c details, IsIdentifier name ∧ isBlank c = true ∧
      line = name ++ ':' :: c :: details ∧ Marker.hasArgumentMarker (trimStart details) = true ∧
        form = entry (String.ofList name) (trimStart details) := by
  constructor
  · intro h
    obtain ⟨hargument, hform⟩ := Option.ite_none_right_eq_some.mp h
    rw [hasArgument] at hargument
    split at hargument
    · next name c details hread =>
      obtain ⟨hname, hline⟩ := identifier?_eq_some hread
      obtain ⟨hc, hmarker⟩ := Bool.and_eq_true_iff.mp hargument
      refine ⟨name, c, details, hname, hc, hline, hmarker, ?_⟩
      rw [← Option.some_inj, ← hform]
      simp [paramLine?, hread, trimStart_cons_blank hc]
    · cases hargument
  · rintro ⟨name, c, details, hname, hc, rfl, hmarker, rfl⟩
    have hread := identifier?_append hname (c := ':') (by decide) (c :: details)
    rw [argumentLine?, if_pos (by simp [hasArgument, hread, hc, hmarker])]
    simp [paramLine?, hread, trimStart_cons_blank hc]

/-- A line is no entry of an argument exactly if there is no marker of one in the text behind an identifier,
a colon and a blank. -/
theorem argumentLine?_eq_none_iff {line : List Char} :
    argumentLine? line = none ↔ ∀ name c details, IsIdentifier name → isBlank c = true →
      line = name ++ ':' :: c :: details → Marker.hasArgumentMarker (trimStart details) = false := by
  rw [Option.eq_none_iff_forall_not_mem]
  constructor
  · intro h name c details hname hc hline
    rw [← Bool.not_eq_true]
    exact fun hmarker => h _ (argumentLine?_eq_some_iff.mpr ⟨name, c, details, hname, hc, hline, hmarker, rfl⟩)
  · intro h form hform
    obtain ⟨name, c, details, hname, hc, hline, hmarker, -⟩ := argumentLine?_eq_some_iff.mp hform
    exact Bool.false_ne_true ((h name c details hname hc hline).symm.trans hmarker)

end LineForm

/-- What a line of help must not be taken for. -/
theorem isHelpLine_iff {line : List Char} :
    IsHelpLine line ↔ trim line = line ∧ Comment.IsOneLine line ∧ line ≠ "Flags:".toList ∧
      ¬ "flag ".toList <+: line ∧ ¬ "param ".toList <+: line ∧
        (¬ "Aliases:".toList <+: line ∧ ¬ "aliases:".toList <+: line) ∧
          LineForm.argumentLine? line = none ∧ Comment.isFence line = false ∧
            Comment.blockInside? line = none := by
  constructor
  · intro h
    exact ⟨h.trimmed, h.oneLine, h.not_head, h.not_flag, h.not_param, h.not_aliases,
      LineForm.argumentLine?_eq_none_iff.mpr h.not_argument, h.not_fence, h.not_block⟩
  · rintro ⟨trimmed, oneLine, head, flag, param, aliases, argument, fence, block⟩
    exact ⟨trimmed, oneLine, head, flag, param, aliases, LineForm.argumentLine?_eq_none_iff.mp argument,
      fence, block⟩

instance : DecidablePred IsHelpLine := fun _ => decidable_of_iff _ isHelpLine_iff.symm

namespace LineForm

/-- Help text is read as help text, and a blank line as one. -/
theorem ofBody_helpLine {line : List Char} (h : IsHelpLine line) :
    ofBody line = if line = [] then blank else help line := by
  rw [ofBody, if_neg (by simpa using h.not_head), afterExactly?_eq_none_iff.mpr h.not_flag,
    afterExactly?_eq_none_iff.mpr h.not_param, aliases?_eq_none h, argumentLine?_eq_none_iff.mpr h.not_argument]
  cases line with
  | nil => rfl
  | cons c cs => rfl

/-! ## Aliases -/

/-- Aliases with commas between them. -/
def aliasLine (aliases : List (List Char)) : List Char :=
  "Aliases:".toList ++ ' ' :: List.intercalate ", ".toList aliases

/-- Written aliases are read back. -/
theorem ofBody_aliasLine {names : List (List Char)}
    (h : ∀ name ∈ names, name ≠ [] ∧ ∀ c ∈ name, isBlank c = false ∧ c ≠ ',' ∧ c ≠ ';') :
    ofBody (aliasLine names) = aliases (names.map String.ofList) := by
  have hread : nonemptyFields (fun c => c == ',' || c == ';' || isBlank c)
      (' ' :: List.intercalate ", ".toList names) = names := by
    have hfree : ∀ name ∈ names, name ≠ [] ∧ ∀ c ∈ name, (c == ',' || c == ';' || isBlank c) = false := by
      intro name hname
      refine ⟨(h name hname).1, fun c hc => ?_⟩
      obtain ⟨hblank, hcomma, hsemicolon⟩ := (h name hname).2 c hc
      simp [hblank, hcomma, hsemicolon]
    have hgap : nonemptyFields (fun c => c == ',' || c == ';' || isBlank c)
        ([' '] ++ List.intercalate ", ".toList names) = nonemptyFields _ _ :=
      nonemptyFields_append_of_sep (List.forall_mem_singleton.mpr rfl) _
    have hcomma : ∀ c ∈ ", ".toList, (c == ',' || c == ';' || isBlank c) = true :=
      List.forall_mem_cons.mpr ⟨rfl, List.forall_mem_singleton.mpr rfl⟩
    rw [List.singleton_append] at hgap
    rw [hgap]
    exact nonemptyFields_intercalate hcomma (by decide) hfree
  have hflag : afterExactly? "flag ".toList (aliasLine names) = none := rfl
  have hparam : afterExactly? "param ".toList (aliasLine names) = none := rfl
  have hhead : (aliasLine names == "Flags:".toList) = false := rfl
  have haliases : aliases? (aliasLine names) = some (aliases (names.map String.ofList)) := by
    have hword : afterExactly? "Aliases:".toList (aliasLine names)
        = some (' ' :: List.intercalate ", ".toList names) := afterExactly?_append _ _
    rw [aliases?, hword, Option.some_or]
    dsimp only [bind, Option.bind]
    rw [hread]
  rw [ofBody, hhead, hflag, hparam, haliases]
  rfl

/-! ## Entries -/

/-- A parameter and the text about it, indented by a tab. -/
def entryLine (name details : List Char) : List Char :=
  '\t' :: (name ++ ':' :: ' ' :: details)

/-- A written entry is read back, when blanks at its end are gone. -/
theorem entryOrHelp_entry {name details : List Char} (hname : IsIdentifier name)
    (htrim : trim details = details) (trimmed : List Char) :
    entryOrHelp (name ++ ':' :: trimEnd (' ' :: details)) trimmed = entry (String.ofList name) details := by
  have hread : trimStart (trimEnd (' ' :: details)) = details := by
    obtain ⟨hstart, hend⟩ := trim_eq_self_iff.mp htrim
    by_cases hne : details = []
    · rw [hne]
      rfl
    · have happend : trimEnd ([' '] ++ details) = [' '] ++ trimEnd details :=
        trimEnd_append _ (by rw [hend]; exact hne)
      rw [List.singleton_append, List.singleton_append, hend] at happend
      rw [happend, trimStart_cons_blank (by decide), hstart]
  rw [entryOrHelp, paramLine?, identifier?_append hname (by decide)]
  dsimp only [bind, Option.bind]
  rw [hread]
  rfl

end LineForm

end CommandDoc
