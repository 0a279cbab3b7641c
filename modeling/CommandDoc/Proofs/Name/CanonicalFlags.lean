import Mathlib.Algebra.Order.BigOperators.Group.List
import Mathlib.Algebra.Order.Group.Nat
import Mathlib.Tactic.TFAE
import CommandDoc.Proofs.Name.Flag

/-!
# Canonical flag lists

A written flag is trimmed before its dashes are taken off, so a blank between the dashes and the name stays with
the name.  Such a name is not the name that it itself writes, and a second pass takes it apart further; without
such blanks the list is canonical.

Main definitions:

- `IsNameIn`: the name that a written flag holds.
- `IsGapped`: a blank stands between the dashes and the name.

Main results:

- Theorem `bareFlag_eq_iff`: the name of a written flag, said of its text.
- Theorem `isBareName_of_mem_canonicalFlags_iff`: names can stand behind dashes unless a flag is gapped.
- Theorem `canonicalFlags_canonicalFlags_iff`: only then does a second pass change nothing.
- Theorem `canonicalFlags_isCanonical_iff`: what the list of names is, and when it is canonical.
-/

namespace CommandDoc

open Text

/-! ## The name in a written flag -/

/-- A written flag holds a name behind its dashes, without blanks around the whole. -/
def IsNameIn (name flag : String) : Prop :=
  ∃ dashes, (∀ c ∈ dashes, c = '-') ∧ trim flag.toList = dashes ++ name.toList ∧
    name.toList.head? ≠ some '-'

/-- A written flag in which a blank stands between the dashes and the name. -/
def IsGapped (flag : String) : Prop :=
  ∃ dashes c rest, (∀ d ∈ dashes, d = '-') ∧ isBlank c = true ∧ trim flag.toList = dashes ++ c :: rest

theorem bareFlag_eq_iff {flag name : String} : bareFlag flag = name ↔ IsNameIn name flag := by
  constructor
  · rintro rfl
    refine ⟨(trim flag.toList).takeWhile (· == '-'), ?_, ?_, ?_⟩
    · intro c hc
      simpa using List.mem_takeWhile_imp hc
    · rw [bareFlag, String.toList_ofList, List.takeWhile_append_dropWhile]
    · rw [bareFlag, String.toList_ofList]
      intro hhead
      have hkept := List.head?_dropWhile_not (· == '-') (trim flag.toList)
      rw [hhead] at hkept
      cases hkept
  · rintro ⟨dashes, hdashes, htrim, hhead⟩
    have hkept : (dashes ++ name.toList).dropWhile (· == '-') = name.toList := by
      apply dropWhile_append_of_head?
      · intro c hc
        simpa using hdashes c hc
      · intro c hc
        simp only [beq_eq_false_iff_ne]
        rintro rfl
        exact hhead hc
    rw [bareFlag, htrim, hkept, String.ofList_toList]

theorem head?_bareFlag (flag : String) : (bareFlag flag).toList.head? ≠ some '-' := by
  obtain ⟨_, _, _, hhead⟩ := bareFlag_eq_iff.mp (Eq.refl (bareFlag flag))
  exact hhead

/-- What stands last in a text that is trimmed at its end is trimmed too. -/
theorem trimEnd_eq_self_of_isSuffix {cs ds : List Char} (hsuffix : ds <:+ cs) (h : trimEnd cs = cs) :
    trimEnd ds = ds := by
  rw [trimEnd, dropTail_eq_rdropWhile, List.rdropWhile_eq_self_iff] at h ⊢
  intro hne
  have hcs : cs ≠ [] := fun hnil => hne (List.suffix_nil.mp (hnil ▸ hsuffix))
  rw [hsuffix.getLast hne]
  exact h hcs

/-- The end of a name is trimmed. -/
theorem trimEnd_bareFlag (flag : String) : trimEnd (bareFlag flag).toList = (bareFlag flag).toList := by
  obtain ⟨dashes, _, htrim, _⟩ := bareFlag_eq_iff.mp (Eq.refl (bareFlag flag))
  exact trimEnd_eq_self_of_isSuffix ⟨dashes, htrim.symm⟩ (trim_eq_self_iff.mp (trim_trim flag.toList)).2

/-- A written flag is gapped exactly if it has a name that a blank starts. -/
theorem isGapped_iff {flag : String} :
    IsGapped flag ↔ ∃ c ∈ (bareFlag flag).toList.head?, isBlank c = true := by
  constructor
  · rintro ⟨dashes, c, rest, hdashes, hblank, htrim⟩
    have hname : bareFlag flag = String.ofList (c :: rest) := by
      refine bareFlag_eq_iff.mpr ⟨dashes, hdashes, by rw [htrim, String.toList_ofList], ?_⟩
      rw [String.toList_ofList]
      rintro ⟨⟩
      cases hblank
    exact ⟨c, by rw [hname, String.toList_ofList]; rfl, hblank⟩
  · rintro ⟨c, hc, hblank⟩
    obtain ⟨dashes, hdashes, htrim, _⟩ := bareFlag_eq_iff.mp (Eq.refl (bareFlag flag))
    obtain ⟨rest, hrest⟩ := List.head?_eq_some_iff.mp hc
    exact ⟨dashes, c, rest, hdashes, hblank, by rw [htrim, hrest]⟩

/-- A name that is there can stand behind dashes exactly if its flag is not gapped. -/
theorem isBareName_bareFlag_iff {flag : String} (hne : bareFlag flag ≠ "") :
    IsBareName (bareFlag flag) ↔ ¬ IsGapped flag := by
  rw [isGapped_iff, IsBareName]
  cases hlist : (bareFlag flag).toList with
  | nil => exact absurd (String.toList_eq_nil_iff.mp hlist) hne
  | cons c rest =>
    have hdash : c ≠ '-' := by
      rintro rfl
      exact head?_bareFlag flag (by rw [hlist]; rfl)
    simp [hdash]

/-! ## A second pass -/

/-- A name that can stand behind dashes, trimmed at its end, is its own name. -/
theorem bareFlag_of_isBareName {name : String} (hbare : IsBareName name)
    (hend : trimEnd name.toList = name.toList) : bareFlag name = name := by
  obtain ⟨c, hc, hdash, hblank⟩ := hbare
  obtain ⟨rest, hrest⟩ := List.head?_eq_some_iff.mp hc
  have hstart : trimStart name.toList = name.toList := by rw [hrest, trimStart_cons hblank]
  refine bareFlag_eq_iff.mpr ⟨[], by simp, trim_eq_self_iff.mpr ⟨hstart, hend⟩, ?_⟩
  rw [hrest]
  simpa using hdash

/-- A name that a blank starts gets shorter. -/
theorem length_bareFlag_lt {name : String} (h : ∃ c ∈ name.toList.head?, isBlank c = true) :
    (bareFlag name).length < name.length := by
  obtain ⟨c, hc, hblank⟩ := h
  obtain ⟨rest, hrest⟩ := List.head?_eq_some_iff.mp hc
  have hkept : (bareFlag name).toList.Sublist rest := by
    rw [bareFlag, String.toList_ofList, hrest, trim_cons_blank hblank]
    exact (List.dropWhile_sublist _).trans (trim_sublist rest)
  have hlength : name.length = rest.length + 1 := by rw [← String.length_toList, hrest, List.length_cons]
  have hle := hkept.length_le
  rw [String.length_toList] at hle
  omega

/-- Every name in a canonical list is the name in itself, or a longer name in the list holds it. -/
theorem exists_longer_of_canonicalFlags {names : List String} (hfixed : canonicalFlags names = names)
    {name : String} (hname : name ∈ names) (hblank : ∃ c ∈ name.toList.head?, isBlank c = true) :
    ∃ longer ∈ names, (∃ c ∈ longer.toList.head?, isBlank c = true) ∧ name.length < longer.length := by
  rw [← hfixed] at hname
  obtain ⟨hne, longer, hlonger, rfl⟩ := mem_canonicalFlags.mp hname
  have hgapped : ∃ c ∈ longer.toList.head?, isBlank c = true := by
    rw [← hfixed] at hlonger
    obtain ⟨hne', flag, -, rfl⟩ := mem_canonicalFlags.mp hlonger
    rw [← isGapped_iff]
    by_contra hgap
    rw [bareFlag_of_isBareName ((isBareName_bareFlag_iff hne').mpr hgap) (trimEnd_bareFlag flag)] at hblank
    exact hgap (isGapped_iff.mpr hblank)
  exact ⟨longer, hlonger, hgapped, length_bareFlag_lt hgapped⟩

theorem isBareName_of_mem_canonicalFlags_iff {flags : List String} :
    (∀ name ∈ canonicalFlags flags, IsBareName name) ↔ ∀ flag ∈ flags, ¬ IsGapped flag := by
  constructor
  · intro hbare flag hflag hgap
    obtain ⟨c, hc, hblank⟩ := isGapped_iff.mp hgap
    have hne : bareFlag flag ≠ "" := by
      intro hempty
      rw [hempty] at hc
      cases hc
    exact (isBareName_bareFlag_iff hne).mp (hbare _ (mem_canonicalFlags.mpr ⟨hne, flag, hflag, rfl⟩)) hgap
  · intro hgaps name hname
    obtain ⟨hne, flag, hflag, rfl⟩ := mem_canonicalFlags.mp hname
    exact (isBareName_bareFlag_iff hne).mpr (hgaps flag hflag)

theorem canonicalFlags_eq_of_mem_iff {flags others : List String}
    (h : ∀ name, name ∈ canonicalFlags others ↔ name ∈ canonicalFlags flags) :
    canonicalFlags others = canonicalFlags flags :=
  Ordered.eq_of_pairwise_of_mem_iff flagBefore_strictOrder
    (Ordered.pairwise_sortDistinct flagBefore_strictOrder _)
    (Ordered.pairwise_sortDistinct flagBefore_strictOrder _) h

/-- The list depends only on which names there are. -/
theorem canonicalFlags_congr {flags others : List String}
    (h : ∀ name, name ≠ "" → ((∃ flag ∈ others, IsNameIn name flag) ↔ ∃ flag ∈ flags, IsNameIn name flag)) :
    canonicalFlags others = canonicalFlags flags := by
  apply canonicalFlags_eq_of_mem_iff
  intro name
  simp only [mem_canonicalFlags, bareFlag_eq_iff]
  exact and_congr_right (h name)

theorem canonicalFlags_canonicalFlags_iff {flags : List String} :
    canonicalFlags (canonicalFlags flags) = canonicalFlags flags ↔ ∀ flag ∈ flags, ¬ IsGapped flag := by
  rw [← isBareName_of_mem_canonicalFlags_iff]
  constructor
  · intro hfixed
    by_contra hbare
    push Not at hbare
    -- A name that a blank starts would have ever longer ones beside it.
    have hlong : ∀ n, ∃ name ∈ canonicalFlags flags,
        (∃ c ∈ name.toList.head?, isBlank c = true) ∧ n ≤ name.length := by
      intro n
      induction n with
      | zero =>
        obtain ⟨name, hname, hnot⟩ := hbare
        obtain ⟨hne, flag, -, rfl⟩ := mem_canonicalFlags.mp hname
        rw [isBareName_bareFlag_iff hne, not_not, isGapped_iff] at hnot
        exact ⟨_, hname, hnot, Nat.zero_le _⟩
      | succ n ih =>
        obtain ⟨name, hname, hblank, hlength⟩ := ih
        obtain ⟨longer, hlonger, hblank', hlt⟩ := exists_longer_of_canonicalFlags hfixed hname hblank
        exact ⟨longer, hlonger, hblank', by omega⟩
    obtain ⟨name, hname, -, hlength⟩ := hlong (((canonicalFlags flags).map String.length).sum + 1)
    have hle := List.le_sum_of_mem (List.mem_map_of_mem (f := String.length) hname)
    omega
  · intro hbare
    have hself : ∀ name ∈ canonicalFlags flags, bareFlag name = name := by
      intro name hname
      have hname' := hbare name hname
      obtain ⟨-, flag, -, rfl⟩ := mem_canonicalFlags.mp hname
      exact bareFlag_of_isBareName hname' (trimEnd_bareFlag flag)
    apply canonicalFlags_eq_of_mem_iff
    intro name
    rw [mem_canonicalFlags]
    constructor
    · rintro ⟨-, flag, hflag, rfl⟩
      rwa [hself flag hflag]
    · exact fun hname => ⟨(mem_canonicalFlags.mp hname).1, name, hname, hself name hname⟩

/-- The distinct names that written flags hold, longer ones first and names of one length by code points. -/
structure IsNameList (flags names : List String) : Prop where
  /-- The names in the list are the names in the flags. -/
  mem_iff : ∀ name, name ∈ names ↔ name ≠ "" ∧ ∃ flag ∈ flags, IsNameIn name flag
  /-- They stand in canonical order, and so none is there twice. -/
  ordered : names.Pairwise fun a b => b.length < a.length ∨ a.length = b.length ∧ a < b

theorem isNameList_canonicalFlags (flags : List String) : IsNameList flags (canonicalFlags flags) where
  mem_iff := by
    intro name
    simp only [mem_canonicalFlags, bareFlag_eq_iff]
  ordered := (Ordered.pairwise_sortDistinct flagBefore_strictOrder _).imp flagBefore_iff.mp

/-- The list of names is determined by the names in the flags, whatever the order and number of the flags, and no
name starts with a dash.  It is canonical, in that every name can stand behind dashes and a second pass changes
nothing, exactly if no blank stands between the dashes of a flag and its name. -/
theorem canonicalFlags_isCanonical_iff (flags : List String) :
    IsNameList flags (canonicalFlags flags) ∧
      (∀ others, (∀ name, name ≠ "" →
          ((∃ flag ∈ others, IsNameIn name flag) ↔ ∃ flag ∈ flags, IsNameIn name flag)) →
        canonicalFlags others = canonicalFlags flags) ∧
      (∀ name ∈ canonicalFlags flags, name.toList.head? ≠ some '-') ∧
      [∀ flag ∈ flags, ¬ IsGapped flag, ∀ name ∈ canonicalFlags flags, IsBareName name,
        canonicalFlags (canonicalFlags flags) = canonicalFlags flags].TFAE := by
  refine ⟨isNameList_canonicalFlags flags, fun others => canonicalFlags_congr, ?_, ?_⟩
  · intro name hname
    obtain ⟨-, flag, -, rfl⟩ := mem_canonicalFlags.mp hname
    exact head?_bareFlag flag
  · tfae_have 1 ↔ 2 := isBareName_of_mem_canonicalFlags_iff.symm
    tfae_have 1 ↔ 3 := canonicalFlags_canonicalFlags_iff.symm
    tfae_finish

/-- Behind a blank even a dash stays with the name, until a second pass. -/
theorem canonicalFlags_isCanonical_iff_hiddenDash :
    canonicalFlags ["- -x", "x"] = [" -x", "x"] ∧
      canonicalFlags ["x", "--x", "- -x", "x"] = canonicalFlags ["- -x", "x"] ∧
      ¬ (∀ name ∈ canonicalFlags ["- -x", "x"], IsBareName name) ∧
      canonicalFlags (canonicalFlags ["- -x", "x"]) = ["x"] := by
  obtain ⟨-, hcongr, -, hcanonical⟩ := canonicalFlags_isCanonical_iff ["- -x", "x"]
  have hlist : canonicalFlags ["- -x", "x"] = [" -x", "x"] := by decide
  have hsecond : canonicalFlags [" -x", "x"] = ["x"] := by decide
  refine ⟨hlist, hcongr _ ?_, fun hbare => ?_, by rw [hlist, hsecond]⟩
  · intro name _
    have hx : bareFlag "x" = "x" := by decide
    have hdashed : bareFlag "--x" = "x" := by decide
    simp only [← bareFlag_eq_iff, List.mem_cons, List.not_mem_nil, or_false, exists_eq_or_imp, exists_eq_left,
      hx, hdashed]
    tauto
  · have hfixed := (hcanonical.out 1 2).mp hbare
    rw [hlist, hsecond] at hfixed
    exact absurd hfixed (by decide)

end CommandDoc
