import Mathlib.Algebra.Group.Nat.Defs
import Mathlib.Data.List.Nodup
import CommandDoc.Declaration
import CommandDoc.Proofs.Except

/-!
# Numbering arguments

Arguments without a position are numbered one after another, behind the greatest position that is given.
Positions are machine words, so the numbers can run out; when they do, and for which argument, follows from
the greatest position alone.

Main definitions:

- `Parameter.isOpen`: an argument without a position; `Parameter.FilledIn`: what may become of one.
- `largestPosition`: the greatest position given, as a number.
- `NumbersFrom`: parameters before and after their open ones are numbered.

Main results:

- Theorem `toNat_greatestPosition`: the number that is counted on from.
- Theorems `numbersFrom_of_assignPositionsAfter` and `error_of_assignPositionsAfter`: counting on from any number.
- Theorem `numbers_assignPositions`: when arguments can be numbered, and how.
-/

namespace CommandDoc

namespace Parameter

/-- An argument without a position. -/
def isOpen (p : Parameter) : Bool :=
  p.positional && p.position.isNone

/-- A parameter before and after the open ones are numbered: an open one may differ in its position, and
another one not at all. -/
def FilledIn (p q : Parameter) : Prop :=
  q = if p.isOpen then { p with position := q.position } else p

end Parameter

/-! ## The greatest position -/

/-- The greatest position given, or zero if none is. -/
def largestPosition (parameters : List Parameter) : Nat :=
  ((parameters.filterMap (·.position)).map UInt32.toNat).max?.getD 0

theorem toNat_foldl_greatest (positions : List UInt32) (greatest : UInt32) :
    (positions.foldl (fun greatest n => if greatest < n then n else greatest) greatest).toNat
      = (positions.map UInt32.toNat).foldl max greatest.toNat := by
  induction positions generalizing greatest with
  | nil => rfl
  | cons n positions ih =>
    rw [List.foldl_cons, ih, List.map_cons, List.foldl_cons]
    congr 1
    split
    · next hlt => exact (Nat.max_eq_right (Nat.le_of_lt (UInt32.lt_iff_toNat_lt.mp hlt))).symm
    · next hle =>
      rw [UInt32.lt_iff_toNat_lt, Nat.not_lt] at hle
      exact (Nat.max_eq_left hle).symm

theorem toNat_greatestPosition (parameters : List Parameter) :
    (greatestPosition parameters).toNat = largestPosition parameters := by
  rw [greatestPosition, toNat_foldl_greatest, largestPosition]
  cases (parameters.filterMap (·.position)).map UInt32.toNat with
  | nil => rfl
  | cons n positions =>
    rw [List.max?_cons', Option.getD_some, List.foldl_cons]
    exact congrArg (positions.foldl max) (Nat.zero_max n)

/-- No position that is given is greater. -/
theorem toNat_le_largestPosition {parameters : List Parameter} {p : Parameter} (hp : p ∈ parameters)
    {given : UInt32} (hgiven : given ∈ p.position) : given.toNat ≤ largestPosition parameters := by
  have hmem : given.toNat ∈ (parameters.filterMap (·.position)).map UInt32.toNat :=
    List.mem_map_of_mem (List.mem_filterMap.mpr ⟨p, hp, hgiven⟩)
  rw [largestPosition]
  cases hmax : ((parameters.filterMap (·.position)).map UInt32.toNat).max? with
  | none =>
    rw [List.max?_eq_none_iff.mp hmax] at hmem
    cases hmem
  | some greatest => exact (List.max?_eq_some_iff.mp hmax).2 _ hmem

/-! ## Counting on -/

section

variable {function : String} {last : UInt32} {p : Parameter} {parameters numbered : List Parameter}

theorem assignPositionsAfter_cons_of_not_isOpen (hclosed : p.isOpen = false) :
    assignPositionsAfter function last (p :: parameters)
      = (assignPositionsAfter function last parameters).map (p :: ·) := by
  rw [assignPositionsAfter, ← Parameter.isOpen, hclosed]
  cases assignPositionsAfter function last parameters with
  | error e => rfl
  | ok rest => rfl

theorem assignPositionsAfter_cons_of_isOpen (hopen : p.isOpen = true) (hlast : last ≠ 4294967295) :
    assignPositionsAfter function last (p :: parameters)
      = (assignPositionsAfter function (last + 1) parameters).map
          ({ p with position := some (last + 1) } :: ·) := by
  rw [assignPositionsAfter, ← Parameter.isOpen, hopen, if_pos rfl, if_neg (by simpa using hlast)]
  cases assignPositionsAfter function (last + 1) parameters with
  | error e => rfl
  | ok rest => rfl

theorem assignPositionsAfter_cons_of_last (hopen : p.isOpen = true) :
    assignPositionsAfter function 4294967295 (p :: parameters)
      = .error (.positionOutOfRange function p.name) := by
  rw [assignPositionsAfter, ← Parameter.isOpen, hopen]
  rfl

/-- The number behind any but the last one. -/
theorem toNat_add_one {last : UInt32} (h : last ≠ 4294967295) : (last + 1).toNat = last.toNat + 1 := by
  rw [Ne, ← UInt32.toNat_inj] at h
  rw [UInt32.toNat_add]
  have hbound := last.toNat_lt
  simp only [UInt32.reduceToNat] at h ⊢
  omega

/-- Parameters before and after their open ones are numbered from the one behind `last` on. -/
structure NumbersFrom (last : Nat) (parameters numbered : List Parameter) : Prop where
  /-- Only open parameters are changed, and only in their position. -/
  keeps : List.Forall₂ Parameter.FilledIn parameters numbered
  /-- The first open one gets the number behind `last`, the next one that behind it, and so on. -/
  counts : ((parameters.zip numbered).filter (·.1.isOpen)).map (fun pair => pair.2.position.map UInt32.toNat)
    = (List.range (parameters.countP Parameter.isOpen)).map fun i => some (last + (i + 1))

/-- Where counting on succeeds, there are numbers for all open parameters, and each gets its own. -/
theorem numbersFrom_of_assignPositionsAfter
    (h : assignPositionsAfter function last parameters = .ok numbered) :
    last.toNat + parameters.countP Parameter.isOpen ≤ 2 ^ 32 - 1 ∧
      NumbersFrom last.toNat parameters numbered := by
  induction parameters generalizing last numbered with
  | nil =>
    cases h
    have hbound := last.toNat_lt
    refine ⟨?_, .nil, rfl⟩
    simp only [List.countP_nil]
    omega
  | cons p parameters ih =>
    by_cases hopen : p.isOpen = true
    · by_cases hlast : last = 4294967295
      · rw [hlast, assignPositionsAfter_cons_of_last hopen] at h
        cases h
      · rw [assignPositionsAfter_cons_of_isOpen hopen hlast] at h
        obtain ⟨rest, hrest, rfl⟩ := map_eq_ok_iff.mp h
        obtain ⟨hfits, hnumbers⟩ := ih hrest
        rw [toNat_add_one hlast] at hfits hnumbers
        refine ⟨?_, .cons (by simp [Parameter.FilledIn, hopen]) hnumbers.keeps, ?_⟩
        · rw [List.countP_cons_of_pos hopen]
          omega
        · rw [List.zip_cons_cons, List.filter_cons_of_pos (by exact hopen), List.map_cons, hnumbers.counts,
            List.countP_cons_of_pos hopen, List.range_succ_eq_map, List.map_cons, List.map_map,
            Option.map_some, toNat_add_one hlast]
          congr 1
          apply List.map_congr_left
          intro i _
          rw [Function.comp_apply, Nat.add_assoc, Nat.add_comm 1]
    · rw [Bool.not_eq_true] at hopen
      rw [assignPositionsAfter_cons_of_not_isOpen hopen] at h
      obtain ⟨rest, hrest, rfl⟩ := map_eq_ok_iff.mp h
      obtain ⟨hfits, hnumbers⟩ := ih hrest
      have hskip : parameters.countP Parameter.isOpen = (p :: parameters).countP Parameter.isOpen :=
        (List.countP_cons_of_neg (by simp [hopen])).symm
      rw [← hskip]
      refine ⟨hfits, .cons (by simp [Parameter.FilledIn, hopen]) hnumbers.keeps, ?_⟩
      rw [List.zip_cons_cons, List.filter_cons_of_neg (by simp [hopen]), hnumbers.counts, hskip]

/-- Where counting on fails, the numbers in front of an open parameter run out. -/
theorem error_of_assignPositionsAfter {error : BuildError}
    (h : assignPositionsAfter function last parameters = .error error) :
    ∃ p, (parameters.filter Parameter.isOpen)[2 ^ 32 - 1 - last.toNat]? = some p ∧
      error = .positionOutOfRange function p.name := by
  induction parameters generalizing last with
  | nil => cases h
  | cons p parameters ih =>
    by_cases hopen : p.isOpen = true
    · rw [List.filter_cons_of_pos hopen]
      by_cases hlast : last = 4294967295
      · rw [hlast, assignPositionsAfter_cons_of_last hopen] at h
        cases h
        exact ⟨p, by rw [hlast]; rfl, rfl⟩
      · rw [assignPositionsAfter_cons_of_isOpen hopen hlast, map_eq_error_iff] at h
        obtain ⟨late, hlate, rfl⟩ := ih h
        refine ⟨late, ?_, rfl⟩
        have hbound := (last + 1).toNat_lt
        rw [toNat_add_one hlast] at hlate hbound
        have hindex : 2 ^ 32 - 1 - last.toNat = (2 ^ 32 - 1 - (last.toNat + 1)) + 1 := by omega
        rw [hindex, List.getElem?_cons_succ, hlate]
    · rw [Bool.not_eq_true] at hopen
      rw [assignPositionsAfter_cons_of_not_isOpen hopen, map_eq_error_iff] at h
      rw [List.filter_cons_of_neg (by simp [hopen])]
      exact ih h

/-- An open parameter gets a number behind `last`. -/
theorem NumbersFrom.last_lt {last : Nat} (h : NumbersFrom last parameters numbered)
    {pair : Parameter × Parameter} (hpair : pair ∈ parameters.zip numbered) (hopen : pair.1.isOpen = true) :
    ∃ n, pair.2.position = some n ∧ last < n.toNat := by
  have hmem : pair.2.position.map UInt32.toNat
      ∈ ((parameters.zip numbered).filter (·.1.isOpen)).map fun pair => pair.2.position.map UInt32.toNat :=
    List.mem_map_of_mem (List.mem_filter.mpr ⟨hpair, hopen⟩)
  rw [h.counts] at hmem
  obtain ⟨i, -, heq⟩ := List.mem_map.mp hmem
  obtain ⟨n, hn, hnumber⟩ := Option.map_eq_some_iff.mp heq.symm
  exact ⟨n, hn, by omega⟩

/-- A parameter stays as it is, or it is open and gets a number behind `last`. -/
theorem NumbersFrom.forall₂ {last : Nat} (h : NumbersFrom last parameters numbered) :
    List.Forall₂ (fun p q => q = p ∧ p.isOpen = false ∨
      ∃ n : UInt32, last < n.toNat ∧ q = { p with position := some n } ∧ p.isOpen = true)
      parameters numbered := by
  refine List.forall₂_iff_zip.mpr ⟨h.keeps.length_eq, fun {p q} hpair => ?_⟩
  have hfilled : p.FilledIn q := (List.forall₂_iff_zip.mp h.keeps).2 hpair
  rw [Parameter.FilledIn] at hfilled
  by_cases hopen : p.isOpen = true
  · obtain ⟨n, hn, hlast⟩ := h.last_lt hpair hopen
    rw [if_pos hopen, show q.position = some n from hn] at hfilled
    exact Or.inr ⟨n, hlast, hfilled, hopen⟩
  · rw [if_neg hopen] at hfilled
    exact Or.inl ⟨hfilled, by simpa using hopen⟩

/-! ## Numbering -/

/-- Numbering changes open parameters only. -/
theorem forall₂_filledIn_of_assignPositions (h : assignPositions function parameters = .ok numbered) :
    List.Forall₂ Parameter.FilledIn parameters numbered :=
  (numbersFrom_of_assignPositionsAfter h).2.keeps

/-- The numbers of open parameters are different. -/
theorem NumbersFrom.nodup {last : Nat} (h : NumbersFrom last parameters numbered) :
    (((parameters.zip numbered).filter (·.1.isOpen)).map (·.2.position)).Nodup := by
  apply List.Nodup.of_map (Option.map UInt32.toNat)
  rw [List.map_map]
  change (((parameters.zip numbered).filter (·.1.isOpen)).map
    fun pair => pair.2.position.map UInt32.toNat).Nodup
  rw [h.counts]
  refine List.Nodup.map (fun i j heq => ?_) List.nodup_range
  simpa using heq

end

/-- Arguments can be numbered exactly if the greatest position leaves a number for each open one.  Then they
get the numbers behind it in the order of the signature, which are all different and greater than every
position that is given, and nothing else is changed.  Otherwise the error names the first argument that gets
none. -/
theorem numbers_assignPositions (function : String) (parameters : List Parameter) :
    ((∃ numbered, assignPositions function parameters = .ok numbered) ↔
        largestPosition parameters + parameters.countP Parameter.isOpen ≤ 2 ^ 32 - 1) ∧
      (∀ numbered, assignPositions function parameters = .ok numbered →
        NumbersFrom (largestPosition parameters) parameters numbered ∧
          (((parameters.zip numbered).filter (·.1.isOpen)).map (·.2.position)).Nodup ∧
          ∀ pair ∈ parameters.zip numbered, pair.1.isOpen = true →
            ∀ p ∈ parameters, ∀ given ∈ p.position, ∃ n, pair.2.position = some n ∧ given < n) ∧
      ∀ error, assignPositions function parameters = .error error →
        ∃ p, (parameters.filter Parameter.isOpen)[2 ^ 32 - largestPosition parameters - 1]? = some p ∧
          error = .positionOutOfRange function p.name := by
  have hok : ∀ numbered, assignPositions function parameters = .ok numbered →
      largestPosition parameters + parameters.countP Parameter.isOpen ≤ 2 ^ 32 - 1 ∧
        NumbersFrom (largestPosition parameters) parameters numbered := by
    intro numbered h
    rw [← toNat_greatestPosition]
    exact numbersFrom_of_assignPositionsAfter h
  have herror : ∀ error, assignPositions function parameters = .error error →
      ∃ p, (parameters.filter Parameter.isOpen)[2 ^ 32 - largestPosition parameters - 1]? = some p ∧
        error = .positionOutOfRange function p.name := by
    intro error h
    rw [← toNat_greatestPosition, Nat.sub_right_comm]
    exact error_of_assignPositionsAfter h
  refine ⟨⟨fun ⟨numbered, h⟩ => (hok numbered h).1, fun hfits => ?_⟩, fun numbered h => ?_, herror⟩
  · cases h : assignPositions function parameters with
    | ok numbered => exact ⟨numbered, rfl⟩
    | error error =>
      -- The argument named by the error is one more than fits.
      obtain ⟨p, hp, -⟩ := herror error h
      obtain ⟨hlt, -⟩ := List.getElem?_eq_some_iff.mp hp
      rw [List.countP_eq_length_filter] at hfits
      omega
  · have hnumbers := (hok numbered h).2
    refine ⟨hnumbers, hnumbers.nodup, fun pair hpair hopen p hp given hgiven => ?_⟩
    obtain ⟨n, hn, hlast⟩ := hnumbers.last_lt hpair hopen
    refine ⟨n, hn, UInt32.lt_iff_toNat_lt.mpr ?_⟩
    exact Nat.lt_of_le_of_lt (toNat_le_largestPosition hp hgiven) hlast

/-- Three arguments without a position and two with one, the greatest of which leaves two numbers, and a
flag. -/
def crowdedParameters : List Parameter :=
  let argument (name : String) (position : Option UInt32) : Parameter :=
    { name := name, type := .scalar .string, positional := true, position := position }
  [argument "from" none, argument "to" (some 4294967293), { name := "force", type := .scalar .bool },
    argument "by" none, argument "at" (some 1), argument "rest" none]

/-- The first two get the last numbers there are, and there is none for the third. -/
theorem numbers_assignPositions_crowded :
    (∃ numbered, assignPositions "Copy" crowdedParameters.dropLast = .ok numbered ∧
      numbered.map (·.position) = [some 4294967294, some 4294967293, none, some 4294967295, some 1] ∧
      NumbersFrom 4294967293 crowdedParameters.dropLast numbered) ∧
      ∃ error, assignPositions "Copy" crowdedParameters = .error error ∧
        ∃ p, (crowdedParameters.filter Parameter.isOpen)[2]? = some p ∧ p.name = "rest" ∧
          error = .positionOutOfRange "Copy" p.name := by
  have hfits : largestPosition crowdedParameters.dropLast
      + crowdedParameters.dropLast.countP Parameter.isOpen ≤ 2 ^ 32 - 1 := by decide
  have hfull : ¬ largestPosition crowdedParameters + crowdedParameters.countP Parameter.isOpen
      ≤ 2 ^ 32 - 1 := by decide
  refine ⟨?_, ?_⟩
  · obtain ⟨numbered, h⟩ := (numbers_assignPositions "Copy" crowdedParameters.dropLast).1.mpr hfits
    refine ⟨numbered, h, ?_, ((numbers_assignPositions "Copy" _).2.1 numbered h).1⟩
    have hpositions : (assignPositions "Copy" crowdedParameters.dropLast).map (List.map (·.position))
        = .ok [some 4294967294, some 4294967293, none, some 4294967295, some 1] := by decide
    rw [h] at hpositions
    exact Except.ok.inj hpositions
  · cases h : assignPositions "Copy" crowdedParameters with
    | ok numbered => exact absurd ((numbers_assignPositions "Copy" _).1.mp ⟨numbered, h⟩) hfull
    | error error =>
      obtain ⟨p, hp, herror⟩ := (numbers_assignPositions "Copy" _).2.2 error h
      have hname : ((crowdedParameters.filter Parameter.isOpen)[2]?).map (·.name) = some "rest" := by decide
      have hindex : 2 ^ 32 - largestPosition crowdedParameters - 1 = 2 := by decide
      rw [hindex] at hp
      rw [hp] at hname
      exact ⟨error, rfl, p, hp, Option.some.inj hname, herror⟩

end CommandDoc
