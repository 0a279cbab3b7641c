import Mathlib.Data.List.Chain
import Mathlib.Data.List.Nodup
import CommandDoc.Proofs.Comment.Scan
import CommandDoc.Proofs.Ordered

/-!
# What the lines of a comment add up to

Lines that do not end the part of a comment they stand in are read one by one.  Their forms are then
collected: the help text, the entries and the warnings each depend on the lines of one form.

Main definitions:

- `Directive.entriesOf` and `Directive.candidateOf`: the entries of a comment and what they say about one
  parameter.

Main results:

- Theorems `readLines_body_append` and `readLines_flags`: how the lines of one part are read.
- Theorem `Directive.paramEntries_eq`: the parameters of a comment in closed form.
- Theorem `Directive.helpLines_map_append`: help text without needless blank lines stays as it is.
-/

namespace CommandDoc

open Text

/-! ## Parts of a comment -/

/-- Lines that do not end the body are read one by one. -/
theorem readLines_body_append {lines : List (List Char)}
    (h : ∀ line ∈ lines, Section.body.after (LineForm.ofBody (trim line)) = .body)
    (rest : List (List Char)) :
    readLines .body (lines ++ rest)
      = lines.map (fun line => ⟨line, false, LineForm.ofBody (trim line)⟩) ++ readLines .body rest := by
  induction lines with
  | nil => rfl
  | cons line lines ih =>
    have hline : readLine .body line = (⟨line, false, LineForm.ofBody (trim line)⟩, .body) := by
      rw [readLine, LineForm.ofLine, h line List.mem_cons_self]
      · simp
      · simp
    rw [List.cons_append, readLines, hline, ih fun other hother => h other (List.mem_cons_of_mem _ hother)]
    rfl

/-- Indented lines of a flags block are entries as far as they can be. -/
theorem readLines_flags {lines : List (List Char)}
    (h : ∀ line ∈ lines, isIndented line = true ∧ trim line ≠ []) :
    readLines .flags lines
      = lines.map fun line => ⟨line, true, LineForm.entryOrHelp (trim line) (trim line)⟩ := by
  induction lines with
  | nil => rfl
  | cons line lines ih =>
    obtain ⟨hindented, hne⟩ := h line List.mem_cons_self
    have hline : readLine .flags line
        = (⟨line, true, LineForm.entryOrHelp (trim line) (trim line)⟩, .flags) := by
      rw [readLine, if_neg (by simpa using hne), if_pos hindented]
    rw [readLines, hline, ih fun other hother => h other (List.mem_cons_of_mem _ hother)]
    rfl

/-! ## Parameters -/

namespace Directive

/-- The entries among the forms of lines. -/
def entriesOf (forms : List LineForm) : List (String × List Char) :=
  forms.filterMap fun
    | .entry name details => some (name, details)
    | _ => none

/-- The entries of a comment are those of its parts. -/
theorem entriesOf_append (forms others : List LineForm) :
    entriesOf (forms ++ others) = entriesOf forms ++ entriesOf others := by
  rw [entriesOf, entriesOf, entriesOf, List.filterMap_append]

theorem entriesOf_eq_nil {forms : List LineForm}
    (h : ∀ form ∈ forms, ∀ name details, form ≠ .entry name details) : entriesOf forms = [] := by
  rw [entriesOf, List.filterMap_eq_nil_iff]
  intro form hform
  cases form with
  | entry name details => exact absurd rfl (h _ hform name details)
  | _ => rfl

theorem mem_entriesOf_iff {forms : List LineForm} {name : String} {details : List Char} :
    (name, details) ∈ entriesOf forms ↔ .entry name details ∈ forms := by
  rw [entriesOf, List.mem_filterMap]
  constructor
  · rintro ⟨form, hform, heq⟩
    cases form with
    | entry other text =>
      cases heq
      exact hform
    | _ => cases heq
  · intro h
    exact ⟨_, h, rfl⟩

theorem mem_map_entriesOf_iff {forms : List LineForm} {name : String} :
    name ∈ (entriesOf forms).map (·.1) ↔ ∃ details, .entry name details ∈ forms := by
  rw [List.mem_map]
  constructor
  · rintro ⟨⟨_, details⟩, hentry, rfl⟩
    exact ⟨details, mem_entriesOf_iff.mp hentry⟩
  · rintro ⟨details, hform⟩
    exact ⟨(name, details), mem_entriesOf_iff.mpr hform, rfl⟩

/-- What entries say about one parameter, the later over the earlier. -/
def candidateOf (entries : List (String × List Char)) (name : String) : Candidate :=
  ((entries.filter fun entry => entry.1 == name).map fun entry => Candidate.ofChars entry.2).foldl
    Candidate.overlay {}

/-- What entries say about each of their parameters, in ascending order of names. -/
def candidatesOf (entries : List (String × List Char)) : List (String × Candidate) :=
  (Ordered.sortStrings (entries.map (·.1))).map fun name => (name, candidateOf entries name)

/-- One more entry is laid over what its own name has so far. -/
theorem candidateOf_concat (entries : List (String × List Char)) (name other : String)
    (details : List Char) :
    candidateOf (entries ++ [(name, details)]) other
      = if other = name then Candidate.overlay (candidateOf entries name) (Candidate.ofChars details)
        else candidateOf entries other := by
  rw [candidateOf, List.filter_append]
  by_cases heq : other = name
  · rw [if_pos heq, heq, candidateOf]
    simp
  · rw [if_neg heq, candidateOf]
    have hskip : [(name, details)].filter (fun entry => entry.1 == other) = [] := by
      simp [Ne.symm heq]
    rw [hskip, List.append_nil]

theorem candidateOf_eq_empty {entries : List (String × List Char)} {name : String}
    (h : name ∉ entries.map (·.1)) : candidateOf entries name = {} := by
  have hnone : (entries.filter fun entry => entry.1 == name) = [] := by
    rw [List.filter_eq_nil_iff]
    intro entry hentry heq
    exact h (List.mem_map.mpr ⟨entry, hentry, by simpa using heq⟩)
  rw [candidateOf, hnone]
  rfl

/-- Adding an entry to the candidates gives those of one more entry. -/
theorem addEntry_candidatesOf (entries : List (String × List Char)) (name : String)
    (details : List Char) :
    addEntry (candidatesOf entries) name details = candidatesOf (entries ++ [(name, details)]) := by
  have hkeys : (Ordered.sortStrings (entries.map (·.1))).Pairwise
      fun a b => Ordered.stringBefore a b = true :=
    Ordered.pairwise_sortDistinct Ordered.stringBefore_strictOrder _
  rw [addEntry, candidatesOf, Ordered.update_map Ordered.stringBefore_strictOrder hkeys]
  rw [candidatesOf, List.map_append, Ordered.sortStrings, Ordered.sortStrings, List.map_singleton,
    ← Ordered.insertDistinct_sortDistinct Ordered.stringBefore_strictOrder]
  apply List.map_congr_left
  intro other _
  rw [candidateOf_concat]
  simp only [Ordered.mem_sortDistinct Ordered.stringBefore_strictOrder]
  by_cases hmem : name ∈ entries.map (·.1)
  · rw [if_pos hmem, Option.getD_some]
  · rw [if_neg hmem, Option.getD_none, candidateOf_eq_empty hmem]

/-- The parameters of a comment are those its entries name, each with what the entries say about it. -/
theorem paramEntries_candidatesOf (entries : List (String × List Char)) (forms : List LineForm) :
    paramEntries (candidatesOf entries) forms = candidatesOf (entries ++ entriesOf forms) := by
  induction forms generalizing entries with
  | nil => rw [paramEntries, entriesOf, List.filterMap_nil, List.append_nil]
  -- Only an entry changes the map, and then the closed form is that of one entry more.
  | cons form forms ih =>
    cases form with
    | entry name details =>
      rw [paramEntries, addEntry_candidatesOf, ih, List.append_assoc]
      rfl
    | _ => exact ih entries

/-- The parameters of a comment in closed form. -/
theorem paramEntries_eq (forms : List LineForm) : paramEntries [] forms = candidatesOf (entriesOf forms) :=
  paramEntries_candidatesOf [] forms

/-- The candidates are one for each name, made of all its entries. -/
theorem mem_candidatesOf {entries : List (String × List Char)} {name : String} {candidate : Candidate} :
    (name, candidate) ∈ candidatesOf entries ↔
      name ∈ entries.map (·.1) ∧ candidate = candidateOf entries name := by
  rw [candidatesOf, List.mem_map, Ordered.sortStrings]
  simp only [Ordered.mem_sortDistinct Ordered.stringBefore_strictOrder]
  constructor
  · rintro ⟨other, hother, heq⟩
    cases heq
    exact ⟨hother, rfl⟩
  · rintro ⟨hname, rfl⟩
    exact ⟨name, hname, rfl⟩

/-- The parameters of a comment are those with an entry. -/
theorem mem_params_iff {forms : List LineForm} {name : String} {candidate : Candidate} :
    (name, candidate) ∈ (ofForms forms).params ↔
      (∃ details, .entry name details ∈ forms) ∧ candidate = candidateOf (entriesOf forms) name := by
  rw [ofForms]
  dsimp only
  rw [paramEntries_eq, mem_candidatesOf, mem_map_entriesOf_iff]

/-- The parameters of a comment stand in ascending order of their names. -/
theorem map_fst_params (forms : List LineForm) :
    (ofForms forms).params.map (·.1) = Ordered.sortStrings ((entriesOf forms).map (·.1)) := by
  have hparams : (ofForms forms).params = candidatesOf (entriesOf forms) := paramEntries_eq forms
  rw [hparams, candidatesOf, List.map_map]
  exact List.map_id _

/-- If no parameter has two entries, each parameter has what its entry says. -/
theorem mem_candidatesOf_iff {entries : List (String × List Char)} (h : (entries.map (·.1)).Nodup)
    {name : String} {candidate : Candidate} :
    (name, candidate) ∈ candidatesOf entries ↔
      ∃ details, (name, details) ∈ entries ∧ candidate = Candidate.ofChars details := by
  have honly : ∀ details, (name, details) ∈ entries → candidateOf entries name = Candidate.ofChars details := by
    intro details hmem
    obtain ⟨before, after, rfl⟩ := List.append_of_mem hmem
    rw [List.map_append, List.map_cons, List.nodup_middle, List.nodup_cons, ← List.map_append] at h
    have hother : (before ++ after).filter (fun entry => entry.1 == name) = [] := by
      rw [List.filter_eq_nil_iff]
      intro entry hentry heq
      exact h.1 (List.mem_map.mpr ⟨entry, hentry, by simpa using heq⟩)
    rw [List.filter_append, List.append_eq_nil_iff] at hother
    rw [candidateOf, List.filter_append, List.filter_cons_of_pos (by simp), hother.1, hother.2]
    exact Candidate.empty_overlay _
  rw [mem_candidatesOf, List.mem_map]
  constructor
  · rintro ⟨⟨⟨_, details⟩, hentry, rfl⟩, rfl⟩
    exact ⟨details, hentry, honly details hentry⟩
  · rintro ⟨details, hmem, rfl⟩
    exact ⟨⟨_, hmem, rfl⟩, (honly details hmem).symm⟩

/-! ## Aliases -/

/-- The alias names of a comment are those of its parts. -/
theorem aliasNames_append (forms others : List LineForm) :
    aliasNames (forms ++ others) = aliasNames forms ++ aliasNames others := by
  rw [aliasNames, aliasNames, aliasNames, List.flatMap_append]

theorem aliasNames_eq_nil {forms : List LineForm} (h : ∀ form ∈ forms, ∀ names, form ≠ .aliases names) :
    aliasNames forms = [] := by
  rw [aliasNames, List.flatMap_eq_nil_iff]
  intro form hform
  cases form with
  | aliases names => exact absurd rfl (h _ hform names)
  | _ => rfl

/-! ## Help text -/

/-- The form of a line of help text. -/
def helpForm (text : List Char) : LineForm :=
  if text = [] then .blank else .help text

/-- Without a line of help there is no help. -/
theorem helpLines_eq_nil {forms : List LineForm} (h : ∀ form ∈ forms, ∀ text, form ≠ .help text)
    (started apart : Bool) : helpLines started apart forms = [] := by
  induction forms generalizing apart with
  | nil => rfl
  | cons form forms ih =>
    have hrest := ih fun other hother => h other (List.mem_cons_of_mem _ hother)
    cases form with
    | help text => exact absurd rfl (h _ List.mem_cons_self text)
    | blank => exact hrest started
    | _ => exact hrest apart

/-- Help text behind other help text stays as it is, if it does not end with a blank line and no two blank
lines follow each other.  A blank line before it is put in front. -/
theorem helpLines_map_append_of_started {help : List (List Char)} {rest : List LineForm}
    (hgaps : help.IsChain fun a b => a ≠ [] ∨ b ≠ []) (hends : help.getLast? ≠ some [])
    (hrest : ∀ form ∈ rest, ∀ text, form ≠ .help text) (apart : Bool)
    (hstarts : apart = true → help.head? ≠ some []) :
    helpLines true apart (help.map helpForm ++ rest)
      = if apart ∧ help ≠ [] then [] :: help else help := by
  induction help generalizing apart with
  | nil =>
    rw [List.map_nil, List.nil_append, helpLines_eq_nil hrest]
    simp
  | cons text help ih =>
    obtain ⟨hnext, hchain⟩ := List.isChain_cons.mp hgaps
    have hlast : help.getLast? ≠ some [] := by
      cases help with
      | nil => simp
      | cons next help => rwa [List.getLast?_cons_cons] at hends
    rw [List.map_cons, List.cons_append, helpForm]
    by_cases htext : text = []
    · -- A blank line only sets `apart`; as none follows it, the next line of the text writes it out.
      subst htext
      have hnone : apart = false := by
        cases apart with
        | false => rfl
        | true => exact absurd rfl (hstarts rfl)
      have hhead : help.head? ≠ some [] := by
        intro hhead
        rcases hnext [] hhead with h | h
        · exact h rfl
        · exact h rfl
      have hne : help ≠ [] := by
        rintro rfl
        exact hends rfl
      rw [if_pos rfl, helpLines, ih hchain hlast true fun _ => hhead, hnone, if_pos ⟨rfl, hne⟩]
      rfl
    · have hrecur := ih hchain hlast false (by simp)
      rw [if_neg (by simp)] at hrecur
      rw [if_neg htext, helpLines, hrecur]
      cases apart with
      | false => simp
      | true => simp

/-- Help text without needless blank lines stays as it is. -/
theorem helpLines_map_append {help : List (List Char)} {rest : List LineForm}
    (hgaps : help.IsChain fun a b => a ≠ [] ∨ b ≠ []) (hstarts : help.head? ≠ some [])
    (hends : help.getLast? ≠ some []) (hrest : ∀ form ∈ rest, ∀ text, form ≠ .help text) :
    helpLines false false (help.map helpForm ++ rest) = help := by
  cases help with
  | nil => exact helpLines_eq_nil hrest false false
  | cons text help =>
    have htext : text ≠ [] := by
      rintro rfl
      exact hstarts rfl
    have hlast : help.getLast? ≠ some [] := by
      cases help with
      | nil => simp
      | cons next help => rwa [List.getLast?_cons_cons] at hends
    have htail := helpLines_map_append_of_started (List.isChain_cons.mp hgaps).2 hlast hrest false (by simp)
    rw [if_neg (by simp)] at htail
    rw [List.map_cons, List.cons_append, helpForm, if_neg htext, helpLines, htail]
    rfl

end Directive

/-! ## Style -/

/-- Lines outside flags blocks that do not open one are in good style. -/
theorem styleWarnings_append {lines : List CommentLine}
    (h : ∀ line ∈ lines, line.inFlags = false ∧ line.form ≠ .flagsHead) (function : String)
    (warned : Bool) (number : Nat) (rest : List CommentLine) :
    styleWarnings function warned number (lines ++ rest)
      = styleWarnings function warned (number + lines.length) rest := by
  induction lines generalizing number with
  | nil => rfl
  | cons line lines ih =>
    obtain ⟨hinside, hform⟩ := h line List.mem_cons_self
    have hrest := ih (fun other hother => h other (List.mem_cons_of_mem _ hother)) (number + 1)
    rw [List.cons_append, styleWarnings.eq_def]
    simp only [hinside, beq_false_of_ne hform, Bool.false_eq_true, if_false, hrest, List.length_cons]
    rw [Nat.add_assoc, Nat.add_comm 1]

/-- Lines of a flags block that no space indents are in good style. -/
theorem styleWarnings_eq_nil {lines : List CommentLine}
    (h : ∀ line ∈ lines, line.text.head? ≠ some ' ' ∧ line.form ≠ .flagsHead) (function : String)
    (warned : Bool) (number : Nat) : styleWarnings function warned number lines = [] := by
  induction lines generalizing number with
  | nil => rfl
  | cons line lines ih =>
    obtain ⟨hspace, hform⟩ := h line List.mem_cons_self
    have hrest := ih (fun other hother => h other (List.mem_cons_of_mem _ hother)) (number + 1)
    rw [styleWarnings.eq_def]
    simp only [beq_false_of_ne hspace, beq_false_of_ne hform, Bool.and_false, Bool.false_eq_true, if_false,
      hrest, ite_self]

end CommandDoc
