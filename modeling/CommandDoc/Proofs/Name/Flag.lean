import CommandDoc.Name.Flag
import CommandDoc.Proofs.Name.Kebab
import CommandDoc.Proofs.Ordered
import CommandDoc.Proofs.Text.Blank

/-!
# Flag names

The flags of a parameter come from written flags or from its identifier.  Either way they stand in canonical
order, and each can be written behind dashes.

Main definitions:

- `IsBareName`: a name that can stand behind dashes.
- `IsFlagList`: what holds of the flags of a parameter.

Main results:

- Theorem `isFlagList_canonicalFlags`: written flags without blanks give such a list.
- Theorem `isBareName_kebab`: so does an identifier in kebab case, unless nothing is left of it.
-/

namespace CommandDoc

open Text

/-! ## Lists of flags -/

/-- A name that can stand behind dashes: it is not empty, and neither a dash nor a blank starts it. -/
def IsBareName (name : String) : Prop :=
  ∃ c ∈ name.toList.head?, c ≠ '-' ∧ isBlank c = false

/-- The flags of a parameter: longer ones first, flags of one length by code points, and none twice. -/
structure IsFlagList (flags : List String) : Prop where
  /-- They stand in canonical order. -/
  ordered : flags.Pairwise fun a b => b.length < a.length ∨ a.length = b.length ∧ a < b
  /-- No flag is there twice. -/
  nodup : flags.Nodup
  /-- Each of them can stand behind dashes. -/
  bare : ∀ flag ∈ flags, IsBareName flag

theorem flagBefore_iff {a b : String} :
    flagBefore a b = true ↔ b.length < a.length ∨ a.length = b.length ∧ a < b := by
  by_cases hlength : a.length = b.length
  · simp [flagBefore, hlength, Ordered.stringBefore]
  · simp [flagBefore, hlength]

theorem isFlagList_of_pairwise {flags : List String}
    (hordered : flags.Pairwise fun a b => flagBefore a b = true) (hbare : ∀ flag ∈ flags, IsBareName flag) :
    IsFlagList flags where
  ordered := hordered.imp flagBefore_iff.mp
  nodup := Ordered.nodup_of_pairwise flagBefore_strictOrder hordered
  bare := hbare

theorem isFlagList_singleton {flag : String} (h : IsBareName flag) : IsFlagList [flag] :=
  isFlagList_of_pairwise (List.pairwise_singleton _ _) (by simpa using h)

/-! ## Written flags -/

/-- A text without blanks, as a written flag is one. -/
def IsUnspaced (flag : String) : Prop :=
  ∀ c ∈ flag.toList, isBlank c = false

theorem mem_canonicalFlags {flags : List String} {name : String} :
    name ∈ canonicalFlags flags ↔ name ≠ "" ∧ ∃ flag ∈ flags, bareFlag flag = name := by
  rw [canonicalFlags, Ordered.mem_sortDistinct flagBefore_strictOrder, List.mem_filter, List.mem_map,
    and_comm, decide_eq_true_iff]

theorem toList_bareFlag {flag : String} (h : IsUnspaced flag) :
    (bareFlag flag).toList = flag.toList.dropWhile (· == '-') := by
  rw [bareFlag, trim_of_forall_not_isBlank h, String.toList_ofList]

theorem isUnspaced_bareFlag {flag : String} (h : IsUnspaced flag) : IsUnspaced (bareFlag flag) := by
  intro c hc
  rw [toList_bareFlag h] at hc
  exact h c ((List.dropWhile_sublist _).subset hc)

theorem isBareName_bareFlag {flag : String} (h : IsUnspaced flag) (hne : bareFlag flag ≠ "") :
    IsBareName (bareFlag flag) := by
  cases hlist : (bareFlag flag).toList with
  | nil => exact absurd (String.toList_eq_nil_iff.mp hlist) hne
  | cons c rest =>
    have hc : c ∈ (bareFlag flag).toList := by simp [hlist]
    refine ⟨c, by simp [hlist], ?_, isUnspaced_bareFlag h c hc⟩
    have hhead := List.head?_dropWhile_not (· == '-') flag.toList
    rw [← toList_bareFlag h, hlist] at hhead
    simpa using hhead

/-- Written flags without blanks give a list of flags. -/
theorem isFlagList_canonicalFlags {flags : List String} (h : ∀ flag ∈ flags, IsUnspaced flag) :
    IsFlagList (canonicalFlags flags) := by
  apply isFlagList_of_pairwise (Ordered.pairwise_sortDistinct flagBefore_strictOrder _)
  intro name hname
  rcases mem_canonicalFlags.mp hname with ⟨hne, flag, hflag, rfl⟩
  exact isBareName_bareFlag (h flag hflag) hne

theorem isUnspaced_of_mem_canonicalFlags {flags : List String} (h : ∀ flag ∈ flags, IsUnspaced flag)
    {name : String} (hname : name ∈ canonicalFlags flags) : IsUnspaced name := by
  rcases mem_canonicalFlags.mp hname with ⟨-, flag, hflag, rfl⟩
  exact isUnspaced_bareFlag (h flag hflag)

/-! ## Kebab case -/

/-- An identifier in kebab case can stand behind dashes, unless nothing is left of it. -/
theorem isBareName_kebab {name : String} (h : kebab name ≠ "") : IsBareName (kebab name) := by
  cases hlist : (kebab name).toList with
  | nil => exact absurd (String.toList_eq_nil_iff.mp hlist) h
  | cons c rest =>
    have hkebab := isKebab_kebab name
    refine ⟨c, by rw [hlist]; rfl, ?_, hkebab.unspaced c (by simp [hlist])⟩
    rintro rfl
    exact hkebab.head (by rw [hlist]; rfl)

end CommandDoc
