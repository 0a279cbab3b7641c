import CommandDoc.Param.Candidate
import Mathlib.Data.List.Induction

/-!
# Priority of what comments say about a parameter

Laying candidates over each other works field by field: every field keeps the last value that sets it.  What
it means to be set depends on the kind of the field, and nothing else does, so one law covers all fields.

Main definitions:

- `Settable`: values of which one stands for a field that is not set.
- `Candidate.IsLastSet`: the value that the last candidate setting a field gives it.
- `Candidate.TakesLast`: a candidate that has this value in every field.

Main results:

- Theorem `Candidate.isLastSet_foldl`: a field of candidates laid over each other.
- Theorem `Candidate.byPriority_eq_mergeSort`: candidates stand by priority in the order of a stable sort.
- Theorem `Candidate.takesLast_merge`: merging takes every field from the last candidate that sets it.
-/

namespace CommandDoc

/-! ## Fields that can be set -/

/-- Values of which one stands for a field that is not set. -/
class Settable (α : Type) where
  /-- The value of a field that is not set. -/
  unset : α
  /-- Whether a value sets its field. -/
  isSet : α → Bool

section

open Settable

instance {α : Type} : Settable (Option α) where
  unset := none
  isSet := Option.isSome

instance {α : Type} : Settable (List α) where
  unset := []
  isSet values := !values.isEmpty

instance : Settable Bool where
  unset := false
  isSet value := value

instance : Settable UInt32 where
  unset := 0
  isSet value := value != 0

namespace Candidate

variable {α : Type} [Settable α] {field : Candidate → α}

/-- The value that the last candidate setting a field gives it; if there is none, the field is not set. -/
inductive IsLastSet (field : Candidate → α) : List Candidate → α → Prop where
  /-- No candidate sets the field. -/
  | never {candidates : List Candidate} (h : ∀ c ∈ candidates, isSet (field c) = false) :
    IsLastSet field candidates unset
  /-- A candidate sets the field, and none behind it does. -/
  | last {before after : List Candidate} {c : Candidate} (hset : isSet (field c) = true)
    (hafter : ∀ later ∈ after, isSet (field later) = false) :
    IsLastSet field (before ++ c :: after) (field c)

/-- A field that candidates laid over each other have from the upper one if that one sets it. -/
structure IsField (field : Candidate → α) : Prop where
  /-- The empty candidate does not set the field. -/
  empty : field {} = unset
  /-- A candidate that sets the field covers the one below it. -/
  overlay : ∀ base top, field (overlay base top) = if isSet (field top) then field top else field base

/-- Candidates laid over each other have a field from the last one that sets it. -/
theorem isLastSet_foldl (h : IsField field) (candidates : List Candidate) :
    IsLastSet field candidates (field (candidates.foldl overlay {})) := by
  -- The last candidate is laid over all others, so the induction is from the end.
  induction candidates using List.reverseRecOn with
  | nil =>
    rw [List.foldl_nil, h.empty]
    exact .never (by simp)
  | append_singleton candidates c ih =>
    rw [List.foldl_append, List.foldl_cons, List.foldl_nil, h.overlay]
    by_cases hset : isSet (field c) = true
    · rw [if_pos hset]
      exact .last hset (by simp)
    · rw [if_neg hset]
      rw [Bool.not_eq_true] at hset
      generalize field (candidates.foldl overlay {}) = value at ih
      cases ih with
      | never hnone =>
        refine .never fun other hother => ?_
        rcases List.mem_append.mp hother with hother | hother
        · exact hnone other hother
        · rw [List.mem_singleton.mp hother, hset]
      | @last before after winner hwinner hafter =>
        rw [List.append_assoc, List.cons_append]
        refine .last hwinner fun later hlater => ?_
        rcases List.mem_append.mp hlater with hlater | hlater
        · exact hafter later hlater
        · rw [List.mem_singleton.mp hlater, hset]

/-! ## Kinds of fields -/

theorem isField_option {β : Type} {field : Candidate → Option β} (hempty : field {} = none)
    (hover : ∀ base top, field (overlay base top) = (field top).or (field base)) : IsField field where
  empty := hempty
  overlay base top := by
    rw [hover]
    cases field top with
    | none => rfl
    | some value => rfl

theorem isField_list {β : Type} {field : Candidate → List β} (hempty : field {} = [])
    (hover : ∀ base top, field (overlay base top) = overList (field base) (field top)) :
    IsField field where
  empty := hempty
  overlay base top := by
    rw [hover]
    cases field top with
    | nil => rfl
    | cons value values => rfl

theorem isField_bool {field : Candidate → Bool} (hempty : field {} = false)
    (hover : ∀ base top, field (overlay base top) = (field top || field base)) : IsField field where
  empty := hempty
  overlay base top := by
    rw [hover]
    cases field top with
    | false => rfl
    | true => rfl

theorem isField_number {field : Candidate → UInt32} (hempty : field {} = 0)
    (hover : ∀ base top, field (overlay base top) = overNumber (field base) (field top)) :
    IsField field where
  empty := hempty
  overlay base top := by
    rw [hover, overNumber]
    by_cases hzero : field top = 0
    · simp [hzero, isSet]
    · simp [hzero, isSet]

/-- A candidate that has every field from the last of some candidates that sets it. -/
structure TakesLast (candidates : List Candidate) (merged : Candidate) : Prop where
  flags : IsLastSet (·.flags) candidates merged.flags
  aliases : IsLastSet (·.aliases) candidates merged.aliases
  defaultValue : IsLastSet (·.defaultValue) candidates merged.defaultValue
  envVar : IsLastSet (·.envVar) candidates merged.envVar
  description : IsLastSet (·.description) candidates merged.description
  required : IsLastSet (·.required) candidates merged.required
  inherited : IsLastSet (·.inherited) candidates merged.inherited
  fromParent : IsLastSet (·.fromParent) candidates merged.fromParent
  positional : IsLastSet (·.positional) candidates merged.positional
  position : IsLastSet (·.position) candidates merged.position
  vararg : IsLastSet (·.vararg) candidates merged.vararg
  varMin : IsLastSet (·.varMin) candidates merged.varMin
  varMax : IsLastSet (·.varMax) candidates merged.varMax
  parser : IsLastSet (·.parser) candidates merged.parser
  generator : IsLastSet (·.generator) candidates merged.generator

/-- Candidates laid over each other have every field from the last one that sets it. -/
theorem takesLast_foldl (candidates : List Candidate) :
    TakesLast candidates (candidates.foldl overlay {}) where
  flags := isLastSet_foldl (isField_list rfl fun _ _ => rfl) candidates
  aliases := isLastSet_foldl (isField_list rfl fun _ _ => rfl) candidates
  defaultValue := isLastSet_foldl (isField_option rfl fun _ _ => rfl) candidates
  envVar := isLastSet_foldl (isField_option rfl fun _ _ => rfl) candidates
  description := isLastSet_foldl (isField_option rfl fun _ _ => rfl) candidates
  required := isLastSet_foldl (isField_bool rfl fun _ _ => rfl) candidates
  inherited := isLastSet_foldl (isField_bool rfl fun _ _ => rfl) candidates
  fromParent := isLastSet_foldl (isField_bool rfl fun _ _ => rfl) candidates
  positional := isLastSet_foldl (isField_bool rfl fun _ _ => rfl) candidates
  position := isLastSet_foldl (isField_option rfl fun _ _ => rfl) candidates
  vararg := isLastSet_foldl (isField_bool rfl fun _ _ => rfl) candidates
  varMin := isLastSet_foldl (isField_number rfl fun _ _ => rfl) candidates
  varMax := isLastSet_foldl (isField_number rfl fun _ _ => rfl) candidates
  parser := isLastSet_foldl (isField_option rfl fun _ _ => rfl) candidates
  generator := isLastSet_foldl (isField_option rfl fun _ _ => rfl) candidates

/-! ## The order of priority -/

/-- Whether an entry can stand before another by priority. -/
def rankLe (a b : CandidateSource × Candidate) : Bool :=
  decide (a.1.rank ≤ b.1.rank)

theorem rankLe_trans (a b c : CandidateSource × Candidate) (hab : rankLe a b = true)
    (hbc : rankLe b c = true) : rankLe a c = true := by
  simp only [rankLe, decide_eq_true_eq] at hab hbc ⊢
  exact Nat.le_trans hab hbc

theorem rankLe_total (a b : CandidateSource × Candidate) : (rankLe a b || rankLe b a) = true := by
  simp only [rankLe, Bool.or_eq_true, decide_eq_true_eq]
  exact Nat.le_total _ _

/-- Sorting by rank keeps the order of the candidates of one source. -/
theorem filter_mergeSort_rankLe (source : CandidateSource) (found : List (CandidateSource × Candidate)) :
    (found.mergeSort rankLe).filter (·.1 == source) = found.filter (·.1 == source) := by
  have hequal : (found.filter (·.1 == source)).Pairwise fun a b => rankLe a b = true := by
    refine List.pairwise_of_forall_mem_list fun a ha b hb => ?_
    rw [rankLe, eq_of_beq (List.mem_filter.mp ha).2, eq_of_beq (List.mem_filter.mp hb).2]
    exact decide_eq_true (Nat.le_refl _)
  have hkept : (found.filter (·.1 == source)).Sublist (found.mergeSort rankLe) :=
    List.sublist_mergeSort rankLe_trans rankLe_total hequal List.filter_sublist
  have hsub := hkept.filter (·.1 == source)
  simp only [List.filter_filter, Bool.and_self] at hsub
  exact (hsub.eq_of_length ((List.mergeSort_perm found rankLe).filter _).length_eq.symm).symm

/-- In a list that stands by rank, the sources follow each other. -/
theorem eq_append_of_pairwise_rankLe {found : List (CandidateSource × Candidate)}
    (h : found.Pairwise fun a b => rankLe a b = true) :
    found = found.filter (·.1 == .precedingComment) ++ found.filter (·.1 == .inlineComment)
      ++ found.filter (·.1 == .docComment) := by
  induction found with
  | nil => rfl
  | cons entry found ih =>
    rw [List.pairwise_cons] at h
    obtain ⟨source, candidate⟩ := entry
    -- Behind an entry there are none of the sources with a lower rank.
    have hnone : ∀ lower : CandidateSource, lower.rank < source.rank →
        found.filter (·.1 == lower) = [] := by
      intro lower hlower
      rw [List.filter_eq_nil_iff]
      intro other hother heq
      have hle : source.rank ≤ other.1.rank := of_decide_eq_true (h.1 other hother)
      rw [eq_of_beq heq] at hle
      exact Nat.not_lt_of_le hle hlower
    have hrest := ih h.2
    cases source with
    | precedingComment => simpa using hrest
    | inlineComment =>
      rw [hnone .precedingComment (by decide), List.nil_append] at hrest
      simpa [hnone .precedingComment (by decide)] using hrest
    | docComment =>
      rw [hnone .precedingComment (by decide), hnone .inlineComment (by decide), List.nil_append,
        List.nil_append] at hrest
      simpa [hnone .precedingComment (by decide), hnone .inlineComment (by decide)] using hrest

/-- Candidates stand by priority in the order of a stable sort by the rank of their source. -/
theorem byPriority_eq_mergeSort (found : List (CandidateSource × Candidate)) :
    byPriority found = (found.mergeSort rankLe).map (·.2) := by
  have hsorted := eq_append_of_pairwise_rankLe (List.pairwise_mergeSort rankLe_trans rankLe_total found)
  simp only [filter_mergeSort_rankLe] at hsorted
  rw [hsorted, List.map_append, List.map_append]
  rfl

/-! ## Merging -/

/-- Laying a candidate over itself changes nothing. -/
theorem overlay_self (c : Candidate) : overlay c c = c := by
  have hlist : ∀ values : List String, overList values values = values := by
    intro values
    cases values <;> rfl
  have hnumber : ∀ n : UInt32, overNumber n n = n := by
    intro n
    rw [overNumber, ite_self]
  simp only [overlay, hlist, hnumber, Option.or_self, Bool.or_self]

/-- Only the order of candidates from one source matters. -/
theorem merge_congr {found other : List (CandidateSource × Candidate)}
    (h : ∀ source, other.filter (·.1 == source) = found.filter (·.1 == source)) :
    merge other = merge found := by
  simp only [merge, byPriority, ofSource, h]

/-- Merging takes every field from the last candidate that sets it, by the rank of the sources and then in
the order given, whatever the order of the sources.  Laying over each other is associative and idempotent,
and the empty candidate is neutral on both sides. -/
theorem takesLast_merge (found : List (CandidateSource × Candidate)) :
    TakesLast ((found.mergeSort fun a b => decide (a.1.rank ≤ b.1.rank)).map (·.2)) (merge found) ∧
      (∀ other : List (CandidateSource × Candidate),
        (∀ source, other.filter (·.1 == source) = found.filter (·.1 == source)) →
          merge other = merge found) ∧
      (∀ a b c, overlay (overlay a b) c = overlay a (overlay b c)) ∧
      (∀ c, overlay c c = c) ∧ ∀ c, overlay c {} = c ∧ overlay {} c = c := by
  refine ⟨?_, fun other hother => merge_congr hother, overlay_assoc, overlay_self,
    fun c => ⟨overlay_empty c, empty_overlay c⟩⟩
  have hlast := takesLast_foldl (byPriority found)
  rw [byPriority_eq_mergeSort] at hlast
  rw [merge, byPriority_eq_mergeSort]
  exact hlast

/-- Candidates out of order, two of them from comments before the parameter. -/
def scatteredCandidates : List (CandidateSource × Candidate) :=
  [(.docComment, { defaultValue := some "guest" }),
    (.precedingComment, { flags := ["u"], description := some "from above", varMax := 3 }),
    (.inlineComment, { description := some "User name", required := true }),
    (.precedingComment, { flags := ["user"], envVar := some "USER" })]

/-- The same candidates by priority. -/
def gatheredCandidates : List (CandidateSource × Candidate) :=
  [(.precedingComment, { flags := ["u"], description := some "from above", varMax := 3 }),
    (.precedingComment, { flags := ["user"], envVar := some "USER" }),
    (.inlineComment, { description := some "User name", required := true }),
    (.docComment, { defaultValue := some "guest" })]

/-- Both give the same, with a field from each of the candidates. -/
theorem takesLast_merge_scattered :
    (∀ source, gatheredCandidates.filter (·.1 == source) = scatteredCandidates.filter (·.1 == source)) ∧
      merge gatheredCandidates = merge scatteredCandidates ∧
      merge scatteredCandidates =
        { flags := ["user"], defaultValue := some "guest", envVar := some "USER"
          description := some "User name", required := true, varMax := 3 } := by
  have horder : ∀ source,
      gatheredCandidates.filter (·.1 == source) = scatteredCandidates.filter (·.1 == source) := by
    intro source
    cases source <;> rfl
  exact ⟨horder, (takesLast_merge scatteredCandidates).2.1 gatheredCandidates horder, by decide⟩

end Candidate

end

end CommandDoc
