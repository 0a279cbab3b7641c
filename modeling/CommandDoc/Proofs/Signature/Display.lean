import CommandDoc.Proofs.Signature.FunctionRef

/-!
# References that were read from a text

A reference that was read is written out and read again.  A name or a name behind a package comes back, but a
path is written between quotes as it is, so it comes back only if it can stand there.

Main definitions:

- `FunctionRef.IsQuotable`: a path that can stand between quotes as it is.

Main results:

- Theorem `FunctionRef.readFrom_display_iff`: which of the references with a path can be read back.
- Theorem `FunctionRef.ofText?_display_iff`: which references can be read back.
-/

namespace CommandDoc

open Text

namespace FunctionRef

/-- A path that can stand between quotes as it is. -/
structure IsQuotable (path : List Char) : Prop where
  /-- Between quotes it closes the quotes and parentheses that it opens. -/
  after_eq : Nesting.start.after ('"' :: (path ++ ['"'])) = .start
  /-- None of its quotes is read as an escaped one. -/
  not_escaped : ¬ ['\\', '"'] <:+: path

/-- Two dots with the same number of dots behind them, apart from blanks, are the same one. -/
theorem eq_of_append_dot_eq {before rest qualifier name : List Char} (hname : trim rest = name)
    (h : before ++ '.' :: rest = qualifier ++ '.' :: name) : before = qualifier ∧ rest = name := by
  refine append_cons_eq_of_count_eq ?_ h
  rw [← hname, count_trim (by decide)]

/-- A path in quotes and a name behind it are read as this path and this name exactly if the path can stand
between quotes. -/
theorem readFrom_imported_iff {path name : List Char} (hname : name ≠ []) (hnameTrim : trim name = name)
    (hdot : splitLastDot? name = none) :
    ReadFrom ('"' :: (path ++ ['"']) ++ '.' :: name) ⟨some (String.ofList path), none, String.ofList name⟩ ↔
      IsQuotable path := by
  have hquotedTrim : trim ('"' :: (path ++ ['"'])) = '"' :: (path ++ ['"']) :=
    trim_surround (by decide) (by decide) path
  have htrim := trim_append_dot (List.cons_ne_nil _ _) hquotedTrim hnameTrim
  constructor
  · intro h
    generalize href : (⟨some (String.ofList path), none, String.ofList name⟩ : FunctionRef) = ref at h
    cases h with
    | sibling _ _ => cases href
    | qualified _ _ _ _ => cases href
    | @imported before rest inside hsplit hrest hquoted =>
      rw [mk.injEq, Option.some.injEq, String.ofList_inj, String.ofList_inj] at href
      rw [htrim] at hsplit
      obtain ⟨htext, hafter, -⟩ := splitLastDotFrom?_eq_some_iff.mp hsplit
      obtain ⟨rfl, rfl⟩ := eq_of_append_dot_eq href.2.2.symm htext.symm
      rw [hquotedTrim, quotedInside?_surround, Option.some.injEq] at hquoted
      subst hquoted
      exact ⟨hafter, unescapeQuotes_eq_self_iff.mp href.1.symm⟩
  · intro h
    have hsplit : splitLastDot? ('"' :: (path ++ ['"']) ++ '.' :: name) = some ('"' :: (path ++ ['"']), name) :=
      splitLastDotFrom?_eq_some_iff.mpr ⟨rfl, h.after_eq, hdot⟩
    have hread := readFrom_imported hname hnameTrim hsplit
    rwa [unescapeQuotes_eq_self_iff.mpr h.not_escaped] at hread

/-- A reference that was read can be read back from how it is written, unless it has a path that cannot stand
between quotes. -/
theorem readFrom_display_iff {text : List Char} {ref : FunctionRef} (h : ReadFrom text ref) :
    ReadFrom ref.display.toList ref ↔ ∀ path ∈ ref.importPath, IsQuotable path.toList := by
  cases h with
  | sibling hne hdot =>
    have hread : ReadFrom (trim text) ⟨none, none, String.ofList (trim (trim text))⟩ :=
      .sibling (by rwa [trim_trim]) (by rwa [trim_trim])
    rw [trim_trim] at hread
    rw [toList_display_sibling, String.toList_ofList]
    exact iff_of_true hread (by simp)
  | qualified hsplit hbefore hrest hquoted =>
    have hread := readFrom_qualified hbefore (trim_trim _) hrest (trim_trim _) (splitLastDot?_trim hsplit) hquoted
    rw [toList_display_qualified, String.toList_ofList, String.toList_ofList]
    exact iff_of_true hread (by simp)
  | imported hsplit hrest hquoted =>
    obtain ⟨-, -, hdot⟩ := splitLastDotFrom?_eq_some_iff.mp (splitLastDot?_trim hsplit)
    rw [toList_display_imported, String.toList_ofList, String.toList_ofList,
      readFrom_imported_iff hrest (trim_trim _) hdot]
    simp

/-- Where no quote stands right behind a backslash, the path of a reference can stand between quotes. -/
theorem ReadFrom.isQuotable {text : List Char} {ref : FunctionRef} (h : ReadFrom text ref)
    (hescaped : ¬ ['\\', '"'] <:+: text) : ∀ path ∈ ref.importPath, IsQuotable path.toList := by
  cases h with
  | sibling _ _ => simp
  | qualified _ _ _ _ => simp
  | @imported before rest inside hsplit _ hquoted =>
    obtain ⟨htext, -, -⟩ := splitLastDotFrom?_eq_some_iff.mp hsplit
    obtain ⟨-, hafter, -⟩ := splitLastDotFrom?_eq_some_iff.mp (splitLastDot?_trim hsplit)
    have hbefore := quotedInside?_eq_some hquoted
    have hinside : inside <:+: before := by
      refine List.IsInfix.trans ⟨['"'], ['"'], ?_⟩ (trim_isInfix before)
      simp [hbefore]
    have htext' : before <:+: text := by
      refine List.IsInfix.trans ⟨[], '.' :: rest, ?_⟩ (trim_isInfix text)
      rw [htext, List.nil_append]
    have hplain : ¬ ['\\', '"'] <:+: inside := fun hquote => hescaped (hquote.trans (hinside.trans htext'))
    rw [hbefore] at hafter
    rintro _ ⟨⟩
    rw [unescapeQuotes_eq_self_iff.mpr hplain, String.toList_ofList]
    exact ⟨hafter, hplain⟩

/-- A reference that was read is written as a text from which it is read again, unless it has a path that cannot
stand between quotes.  Only a text with a quote right behind a backslash has such a path. -/
theorem ofText?_display_iff {raw : String} {ref : FunctionRef} (h : ofText? raw = some ref) :
    (ofText? ref.display = some ref ↔ ∀ path ∈ ref.importPath, IsQuotable path.toList) ∧
      (¬ ['\\', '"'] <:+: raw.toList → ofText? ref.display = some ref) := by
  have hread : ReadFrom raw.toList ref := ofChars?_eq_some_iff.mp h
  have hiff : ofText? ref.display = some ref ↔ ∀ path ∈ ref.importPath, IsQuotable path.toList := by
    rw [ofText?, ofChars?_eq_some_iff, readFrom_display_iff hread]
  exact ⟨hiff, fun hescaped => hiff.mpr (hread.isQuotable hescaped)⟩

/-- A path with a single quote in it is read, but not read back. -/
theorem ofText?_display_iff_quotedPath :
    ofText? "\"a\\\"b\".F" = some ⟨some "a\"b", none, "F"⟩ ∧
      ofText? (display ⟨some "a\"b", none, "F"⟩) ≠ some ⟨some "a\"b", none, "F"⟩ := by
  have hread : ofText? "\"a\\\"b\".F" = some ⟨some "a\"b", none, "F"⟩ := by decide +kernel
  refine ⟨hread, fun hagain => ?_⟩
  have hquotable := (ofText?_display_iff hread).1.mp hagain "a\"b" rfl
  exact absurd hquotable.after_eq (by decide +kernel)

end FunctionRef

end CommandDoc
