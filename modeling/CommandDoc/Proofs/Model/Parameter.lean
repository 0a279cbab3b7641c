import CommandDoc.Proofs.Declaration
import CommandDoc.Proofs.Param.Coherence

/-!
# Finished parameters

The signature and the comments of a function give its parameters, and then the arguments among them are
numbered.  What comes out fits together: exactly the arguments have a position, only they are repeated, and
only what is repeated has bounds.

Main definitions:

- `Parameter.IsPrepared`: a parameter that is ready to be numbered.
- `Parameter.IsWellFormed`: a finished parameter.

Main results:

- Theorem `isPrepared_resolve`: a signature and a coherent candidate give a prepared parameter.
- Theorem `isWellFormed_of_assignPositions`: numbered parameters are well formed.
-/

namespace CommandDoc

namespace Parameter

/-- A parameter that is ready to be numbered: what has a position is an argument, positions are not zero, only
arguments are repeated, only what is repeated has bounds, and the flags stand in canonical order. -/
structure IsPrepared (p : Parameter) : Prop where
  /-- What has a position is an argument. -/
  positional_of_position : p.position ≠ none → p.positional = true
  /-- No position is zero. -/
  position_ne_zero : p.position ≠ some 0
  /-- What is repeated is an argument. -/
  positional_of_vararg : p.vararg = true → p.positional = true
  /-- There are bounds only for what is repeated. -/
  bounds : p.vararg = false → p.varMin = 0 ∧ p.varMax = 0
  /-- Its flags can be written and stand in order. -/
  flags : IsFlagList p.flags

/-- A finished parameter: exactly the arguments have a position, which is one at least; the rest is as for a
prepared one. -/
structure IsWellFormed (p : Parameter) : Prop where
  /-- It is an argument exactly if it has a position. -/
  positional_iff : p.positional = true ↔ p.position.isSome = true
  /-- Positions count from one. -/
  one_le_position : ∀ n ∈ p.position, 1 ≤ n
  /-- What is repeated is an argument. -/
  positional_of_vararg : p.vararg = true → p.positional = true
  /-- There are bounds only for what is repeated. -/
  bounds : p.vararg = false → p.varMin = 0 ∧ p.varMax = 0
  /-- Its flags can be written and stand in order. -/
  flags : IsFlagList p.flags

/-! ## Signature and comments -/

theorem isPrepared_ofCandidate (name : String) (type : TypeTag) {candidate : Candidate}
    (h : candidate.IsCoherent) : (ofCandidate name type candidate).IsPrepared where
  positional_of_position := by
    intro hposition
    change (candidate.positional || candidate.vararg) = true
    rw [h.positional hposition, Bool.true_or]
  position_ne_zero := h.position_ne_zero
  positional_of_vararg := (becomes_ofCandidate name type candidate).positional_of_vararg
  bounds := h.bounds
  flags := by
    apply isFlagList_canonicalFlags
    intro flag hflag
    exact (List.mem_append.mp hflag).elim (h.flags flag) (h.aliases flag)

theorem IsPrepared.withVariadic {p : Parameter} (h : p.IsPrepared) (variadic : Bool) :
    (p.withVariadic variadic).IsPrepared := by
  cases variadic with
  | false => exact h
  | true => exact ⟨fun _ => rfl, h.position_ne_zero, fun _ => rfl, by simp [Parameter.withVariadic], h.flags⟩

theorem IsPrepared.withKebabFlag {p : Parameter} (h : p.IsPrepared) : p.withKebabFlag.IsPrepared := by
  rw [Parameter.withKebabFlag]
  split
  · next hflag =>
    simp only [Bool.and_eq_true, bne_iff_ne] at hflag
    exact ⟨h.positional_of_position, h.position_ne_zero, h.positional_of_vararg, h.bounds,
      isFlagList_singleton (isBareName_kebab hflag.1.2)⟩
  · exact h

/-- A signature and a coherent candidate give a prepared parameter. -/
theorem isPrepared_resolve (typed : TypedParam) {merged : Candidate} (h : merged.IsCoherent) :
    (resolve typed merged).IsPrepared :=
  ((isPrepared_ofCandidate typed.name typed.type h).withVariadic typed.variadic).withKebabFlag

end Parameter

/-- Comments beside a parameter give coherent candidates, whatever the doc comment gives. -/
theorem isCoherent_of_mem_candidates {documented : Option Candidate}
    (h : ∀ c ∈ documented, c.IsCoherent) {p : SourceParam} :
    ∀ entry ∈ candidates documented p, entry.2.IsCoherent := by
  intro entry hentry
  simp only [candidates, List.mem_append, Option.mem_toList, Option.map_eq_some_iff] at hentry
  rcases hentry with (⟨c, hc, rfl⟩ | ⟨text, -, rfl⟩) | ⟨text, -, rfl⟩
  · exact h c hc
  · exact Candidate.isCoherent_ofChars text
  · exact Candidate.isCoherent_ofChars text

theorem isPrepared_of_mem_finishParameters {documented : List (String × Candidate)}
    (h : ∀ entry ∈ documented, entry.2.IsCoherent) (pairs : List (SourceParam × TypedParam)) :
    ∀ p ∈ (finishParameters documented pairs).1, p.IsPrepared := by
  induction pairs generalizing documented with
  | nil => simp [finishParameters]
  | cons pair pairs ih =>
    intro p hp
    rcases List.mem_cons.mp hp with rfl | hp
    · apply Parameter.isPrepared_resolve
      apply Candidate.isCoherent_merge
      apply isCoherent_of_mem_candidates
      exact fun c hc => h _ (Ordered.mem_of_find?_eq_some hc)
    · exact ih (fun entry hentry => h entry (List.mem_filter.mp hentry).1) p hp

/-! ## Numbering -/

theorem Parameter.IsPrepared.isWellFormed {p : Parameter} (h : p.IsPrepared)
    (hposition : p.positional = true → p.position.isSome = true) : p.IsWellFormed where
  positional_iff := by
    refine ⟨hposition, fun hsome => h.positional_of_position ?_⟩
    rw [← Option.isSome_iff_ne_none]
    exact hsome
  one_le_position := by
    intro n hn
    have hne : n ≠ 0 := by
      rintro rfl
      exact h.position_ne_zero hn
    rw [UInt32.le_iff_toNat_le]
    have hpos : n.toNat ≠ 0 := fun hzero => hne (UInt32.toNat_inj.mp hzero)
    exact Nat.one_le_iff_ne_zero.mpr hpos
  positional_of_vararg := h.positional_of_vararg
  bounds := h.bounds
  flags := h.flags

/-- Numbered parameters are well formed: every argument has a position, and none of the new ones is zero. -/
theorem isWellFormed_of_assignPositions {function : String} {parameters numbered : List Parameter}
    (hprepared : ∀ p ∈ parameters, p.IsPrepared) (h : assignPositions function parameters = .ok numbered) :
    ∀ p ∈ numbered, p.IsWellFormed := by
  intro q hq
  obtain ⟨p, hp, hpq⟩ := exists_of_mem_right (numbersFrom_of_assignPositionsAfter h).2.forall₂ hq
  have hp := hprepared p hp
  rcases hpq with ⟨rfl, hclosed⟩ | ⟨n, hlast, rfl, hopen⟩
  · refine hp.isWellFormed fun hpositional => ?_
    rw [Option.isSome_iff_ne_none]
    intro hnone
    simp [Parameter.isOpen, hpositional, hnone] at hclosed
  · have hne : n ≠ 0 := by
      rintro rfl
      exact Nat.not_lt_zero _ hlast
    rw [Parameter.isOpen, Bool.and_eq_true] at hopen
    have hnumbered : { p with position := some n }.IsPrepared :=
      ⟨fun _ => hopen.1, by simpa using hne, hp.positional_of_vararg, hp.bounds, hp.flags⟩
    exact hnumbered.isWellFormed fun _ => rfl

end CommandDoc
