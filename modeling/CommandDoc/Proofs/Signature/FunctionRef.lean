import CommandDoc.Proofs.Text.Nesting
import CommandDoc.Signature.FunctionRef

/-!
# References can be read back

A reference is read as it is written, whichever of the three forms it has.

Main definitions:

- `IsPlainName`: what names of functions and packages look like.
- `FunctionRef.IsPlain`: a reference over such names.
- `FunctionRef.ReadFrom`: how a reference is read from a text.

Main results:

- Theorem `FunctionRef.ofChars?_eq_some_iff`: a reference is read in one of three ways.
- Theorem `FunctionRef.ofChars?_display`: a reference can be read back from how it is written.
-/

namespace CommandDoc

open Text

/-! ## Names -/

/-- The name of a function or a package: anything without blanks, dots, separators and brackets. -/
structure IsPlainName (name : List Char) : Prop where
  /-- There is a name. -/
  ne_nil : name ≠ []
  /-- No character separates or encloses anything. -/
  forall_mem : ∀ c ∈ name, isBlank c = false ∧ c ∉ ['.', '"', '(', ')', ';', ',', '\\']

/-- Being a plain name is decided by the characters. -/
theorem isPlainName_iff {name : List Char} :
    IsPlainName name ↔
      name ≠ [] ∧
        (name.all fun c => isBlank c = false ∧ c ∉ ['.', '"', '(', ')', ';', ',', '\\']) = true := by
  rw [List.all_eq_true]
  simp only [decide_eq_true_eq]
  exact ⟨fun h => ⟨h.ne_nil, h.forall_mem⟩, fun h => ⟨h.1, h.2⟩⟩

instance : DecidablePred IsPlainName := fun _ => decidable_of_iff _ isPlainName_iff.symm

namespace IsPlainName

variable {name : List Char} (h : IsPlainName name)

include h

/-- A plain name can be cut at no separator. -/
theorem isBalanced : IsBalanced ['.', ';', ','] name := by
  refine .of_forall fun c hc => ?_
  have hnot := (h.forall_mem c hc).2
  simp only [List.mem_cons, List.not_mem_nil, or_false, not_or] at hnot ⊢
  simp [hnot]

theorem trim_eq : trim name = name :=
  trim_of_forall_not_isBlank fun c hc => (h.forall_mem c hc).1

theorem quotedInside?_eq_none : quotedInside? name = none := by
  rw [quotedInside?]
  rintro cs rfl
  exact (h.forall_mem '"' List.mem_cons_self).2 (by decide)

end IsPlainName

/-! ## Reading references -/

namespace FunctionRef

/-- How a reference is read from a text: from all of it, or from what stands around its last dot. -/
inductive ReadFrom (text : List Char) : FunctionRef → Prop
  /-- There is no dot outside quotes and parentheses. -/
  | sibling (hne : trim text ≠ []) (hdot : splitLastDot? (trim text) = none) :
      ReadFrom text ⟨none, none, String.ofList (trim text)⟩
  /-- A package without quotes stands in front of the dot. -/
  | qualified {before rest : List Char} (hsplit : splitLastDot? (trim text) = some (before, rest))
      (hbefore : trim before ≠ []) (hrest : trim rest ≠ []) (hquoted : quotedInside? (trim before) = none) :
      ReadFrom text ⟨none, some (String.ofList (trim before)), String.ofList (trim rest)⟩
  /-- A path in quotes stands in front of the dot. -/
  | imported {before rest inside : List Char} (hsplit : splitLastDot? (trim text) = some (before, rest))
      (hrest : trim rest ≠ []) (hquoted : quotedInside? (trim before) = some inside) :
      ReadFrom text ⟨some (String.ofList (unescapeQuotes inside)), none, String.ofList (trim rest)⟩

/-- A reference is read in one of these ways. -/
theorem ofChars?_eq_some_iff {text : List Char} {ref : FunctionRef} :
    ofChars? text = some ref ↔ ReadFrom text ref := by
  constructor
  · intro h
    unfold ofChars? at h
    split at h
    · cases h
    · next hne =>
      split at h
      · next hdot =>
        cases h
        exact .sibling hne hdot
      · next before rest hsplit =>
        dsimp only at h
        split at h
        · cases h
        · next hparts =>
          simp only [Bool.or_eq_true, List.isEmpty_iff, not_or] at hparts
          cases hquoted : quotedInside? (trim before) with
          | none =>
            rw [hquoted] at h
            cases h
            exact .qualified hsplit hparts.2 hparts.1 hquoted
          | some inside =>
            rw [hquoted, unquote, trim_trim, hquoted] at h
            cases h
            exact .imported hsplit hparts.1 hquoted
  · intro h
    unfold ofChars?
    cases h with
    | sibling hne hdot =>
      split
      · next hnil => exact absurd hnil hne
      · rw [hdot]
    | qualified hsplit hbefore hrest hquoted =>
      split
      · next hnil =>
        rw [hnil] at hsplit
        cases hsplit
      · rw [hsplit]
        simp [hbefore, hrest, hquoted]
    | @imported before rest inside hsplit hrest hquoted =>
      split
      · next hnil =>
        rw [hnil] at hsplit
        cases hsplit
      · have hbefore : trim before ≠ [] := by
          intro hnil
          rw [hnil] at hquoted
          cases hquoted
        rw [hsplit]
        simp [hbefore, hrest, hquoted, unquote, trim_trim]

/-- A qualifier and a name behind it are trimmed together if each of them is. -/
theorem trim_append_dot {qualifier name : List Char} (hqualifier : qualifier ≠ [])
    (hqualifierTrim : trim qualifier = qualifier) (hnameTrim : trim name = name) :
    trim (qualifier ++ '.' :: name) = qualifier ++ '.' :: name := by
  have hdot : trimEnd ('.' :: name) = '.' :: name := by
    rw [trimEnd_cons (by decide), (trim_eq_self_iff.mp hnameTrim).2]
  have hend : trimEnd (qualifier ++ '.' :: name) = qualifier ++ '.' :: name := by
    rw [trimEnd_append _ (by rw [hdot]; exact List.cons_ne_nil _ _), hdot]
  exact trim_eq_self_iff.mpr ⟨trimStart_append hqualifier (trim_eq_self_iff.mp hqualifierTrim).1 _, hend⟩

/-- A package without quotes and a name behind it are read as such. -/
theorem readFrom_qualified {package name : List Char} (hpackage : package ≠ [])
    (hpackageTrim : trim package = package) (hname : name ≠ []) (hnameTrim : trim name = name)
    (hsplit : splitLastDot? (package ++ '.' :: name) = some (package, name))
    (hquoted : quotedInside? package = none) :
    ReadFrom (package ++ '.' :: name) ⟨none, some (String.ofList package), String.ofList name⟩ := by
  have htrim := trim_append_dot hpackage hpackageTrim hnameTrim
  have hread : ReadFrom (package ++ '.' :: name)
      ⟨none, some (String.ofList (trim package)), String.ofList (trim name)⟩ :=
    .qualified (by rw [htrim, hsplit]) (by rwa [hpackageTrim]) (by rwa [hnameTrim]) (by rwa [hpackageTrim])
  rwa [hpackageTrim, hnameTrim] at hread

/-- A text in quotes and a name behind it are read as a path, with the escaped quotes read as quotes. -/
theorem readFrom_imported {inside name : List Char} (hname : name ≠ []) (hnameTrim : trim name = name)
    (hsplit : splitLastDot? ('"' :: (inside ++ ['"']) ++ '.' :: name) = some ('"' :: (inside ++ ['"']), name)) :
    ReadFrom ('"' :: (inside ++ ['"']) ++ '.' :: name)
      ⟨some (String.ofList (unescapeQuotes inside)), none, String.ofList name⟩ := by
  have hquotedTrim : trim ('"' :: (inside ++ ['"'])) = '"' :: (inside ++ ['"']) :=
    trim_surround (by decide) (by decide) inside
  have htrim := trim_append_dot (List.cons_ne_nil _ _) hquotedTrim hnameTrim
  have hread : ReadFrom ('"' :: (inside ++ ['"']) ++ '.' :: name)
      ⟨some (String.ofList (unescapeQuotes inside)), none, String.ofList (trim name)⟩ :=
    .imported (by rw [htrim, hsplit]) (by rwa [hnameTrim]) (by rw [hquotedTrim, quotedInside?_surround])
  rwa [hnameTrim] at hread

/-! ## References that can be written down -/

/-- A reference that can be written down: a name alone, or a name behind a package or behind a quoted path. -/
inductive IsPlain : FunctionRef → Prop
  /-- A function of the same package. -/
  | sibling {name : String} (hname : IsPlainName name.toList) : IsPlain ⟨none, none, name⟩
  /-- A function of an imported package. -/
  | qualified {package name : String} (hpackage : IsPlainName package.toList)
      (hname : IsPlainName name.toList) : IsPlain ⟨none, some package, name⟩
  /-- A function of the package with an import path, which can stand in quotes as it is. -/
  | imported {path name : String} (hquote : '"' ∉ path.toList) (hbackslash : '\\' ∉ path.toList)
      (hname : IsPlainName name.toList) : IsPlain ⟨some path, none, name⟩

/-! ## Writing and reading -/

/-- A reference within its package shows the name alone. -/
theorem toList_display_sibling (name : String) :
    (display ⟨none, none, name⟩).toList = name.toList := rfl

/-- A qualified reference shows its package and a dot in front. -/
theorem toList_display_qualified (package name : String) :
    (display ⟨none, some package, name⟩).toList = package.toList ++ '.' :: name.toList := by
  simp [display]

/-- An imported reference shows the quoted path and a dot in front. -/
theorem toList_display_imported (path name : String) :
    (display ⟨some path, none, name⟩).toList = '"' :: (path.toList ++ ['"']) ++ '.' :: name.toList := by
  simp [display]

theorem quote_eq_surround {path : List Char} (hquote : '"' ∉ path) : quote path = '"' :: (path ++ ['"']) := by
  rw [quote, escapeQuotes_eq_self hquote]

theorem trim_display {ref : FunctionRef} (h : ref.IsPlain) :
    trim ref.display.toList = ref.display.toList := by
  cases h with
  | sibling hname =>
    rw [toList_display_sibling]
    exact hname.trim_eq
  | qualified hpackage hname =>
    rw [toList_display_qualified]
    exact trim_append_dot hpackage.ne_nil hpackage.trim_eq hname.trim_eq
  | imported _ _ hname =>
    rw [toList_display_imported]
    exact trim_append_dot (List.cons_ne_nil _ _) (trim_surround (by decide) (by decide) _) hname.trim_eq

theorem display_ne_nil {ref : FunctionRef} (h : ref.IsPlain) : ref.display.toList ≠ [] := by
  cases h with
  | sibling hname => exact hname.ne_nil
  | qualified _ _ =>
    rw [toList_display_qualified]
    simp
  | imported _ _ _ =>
    rw [toList_display_imported]
    simp

/-- A written reference can stand between separators. -/
theorem isBalanced_display {ref : FunctionRef} (h : ref.IsPlain) :
    IsBalanced [';', ','] ref.display.toList := by
  have hplain : ∀ {name : List Char}, IsPlainName name → IsBalanced [';', ','] name :=
    fun hname => hname.isBalanced.mono (by simp)
  cases h with
  | sibling hname => exact hplain hname
  | qualified hpackage hname =>
    rw [toList_display_qualified]
    exact (hplain hpackage).append (.char (by decide) (by decide) (hplain hname))
  | imported hquote hbackslash hname =>
    rw [toList_display_imported, ← quote_eq_surround hquote]
    exact .quoted hbackslash (.char (by decide) (by decide) (hplain hname))

/-- A reference can be read back from how it is written. -/
theorem ofChars?_display {ref : FunctionRef} (h : ref.IsPlain) : ofChars? ref.display.toList = some ref := by
  rw [ofChars?_eq_some_iff]
  cases h with
  | @sibling name hname =>
    have hread : ReadFrom name.toList ⟨none, none, String.ofList (trim name.toList)⟩ :=
      .sibling (by rw [hname.trim_eq]; exact hname.ne_nil)
        (by rw [hname.trim_eq]; exact (hname.isBalanced.mono (by simp)).splitLastDot?_eq_none)
    rwa [hname.trim_eq, String.ofList_toList] at hread
  | @qualified package name hpackage hname =>
    have hread := readFrom_qualified hpackage.ne_nil hpackage.trim_eq hname.ne_nil hname.trim_eq
      (splitLastDot?_append hpackage.isBalanced (hname.isBalanced.mono (by simp))) hpackage.quotedInside?_eq_none
    rwa [String.ofList_toList, String.ofList_toList, ← toList_display_qualified] at hread
  | @imported path name hquote hbackslash hname =>
    have hbalanced : IsBalanced [] ('"' :: (path.toList ++ ['"'])) := by
      rw [← quote_eq_surround hquote]
      exact .quote hbackslash
    have hread := readFrom_imported hname.ne_nil hname.trim_eq
      (splitLastDot?_append hbalanced (hname.isBalanced.mono (by simp)))
    rwa [unescapeQuotes_eq_self hbackslash, String.ofList_toList, String.ofList_toList,
      ← toList_display_imported] at hread

end FunctionRef

end CommandDoc
