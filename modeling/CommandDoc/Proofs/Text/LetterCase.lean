import CommandDoc.Text.LetterCase

/-!
# Laws of comparing without case

Main results:

- Theorem `afterWord?_eq_some_iff`: what a word was compared with stands in front of the rest.
- Theorem `eq_of_foldLetter_eq`: a character without case has a single spelling.
-/

namespace CommandDoc.Text

/-- What a word was compared with stands in front of the rest. -/
theorem afterWord?_eq_some_iff {fold : Char → Char} {word cs rest : List Char} :
    afterWord? fold word cs = some rest ↔ ∃ xs, cs = xs ++ rest ∧ xs.map fold = word := by
  induction word generalizing cs with
  | nil => simp [afterWord?]
  | cons w word ih =>
    cases cs with
    | nil => simp [afterWord?]
    | cons c cs =>
      rw [afterWord?]
      constructor
      · intro h
        split at h
        · next hc =>
          obtain ⟨xs, rfl, rfl⟩ := ih.mp h
          exact ⟨c :: xs, rfl, by rw [List.map_cons, beq_iff_eq.mp hc]⟩
        · cases h
      · rintro ⟨xs, hcs, hword⟩
        cases xs with
        | nil => cases hword
        | cons x xs =>
          rw [List.cons_append, List.cons.injEq] at hcs
          rw [List.map_cons, List.cons.injEq] at hword
          rw [hcs.1, hword.1, beq_self_eq_true, if_pos rfl, ih]
          exact ⟨xs, hcs.2, hword.2⟩

theorem afterWord?_sublist {fold : Char → Char} {word cs rest : List Char}
    (h : afterWord? fold word cs = some rest) : rest.Sublist cs := by
  obtain ⟨xs, rfl, -⟩ := afterWord?_eq_some_iff.mp h
  exact List.sublist_append_right xs rest

/-- Only a capital has a lower case form that is another character, and this form is a lower case letter. -/
theorem eq_of_toLower_eq {c d : Char} (hd : d.isLower = false) (h : c.toLower = d) : c = d := by
  unfold Char.toLower at h
  split at h
  · next hupper =>
    refine absurd hd ?_
    rw [← h, Bool.not_eq_false]
    unfold Char.isLower
    simp only [Bool.and_eq_true, decide_eq_true_eq, ge_iff_le, UInt32.le_iff_toNat_le, Char.reduceVal,
      UInt32.reduceToNat, UInt32.toNat_add, UInt32.reduceSub] at hupper ⊢
    omega
  · exact h

/-- A character without case has a single spelling. -/
theorem eq_of_foldLetter_eq {c d : Char} (hd : d.isLower = false) (h : foldLetter c = d) : c = d := by
  unfold foldLetter at h
  split at h
  · exact absurd hd (by rw [← h]; decide)
  · split at h
    · exact absurd hd (by rw [← h]; decide)
    · exact eq_of_toLower_eq hd h

/-- The two ways to ignore case differ in the spellings of s and k only. -/
theorem toLower_of_foldLetter_eq {c d : Char} (hs : d ≠ 's') (hk : d ≠ 'k') (h : foldLetter c = d) :
    c.toLower = d := by
  unfold foldLetter at h
  split at h
  · exact absurd h.symm hs
  · split at h
    · exact absurd h.symm hk
    · exact h

/-- A word with a character without case is found only in a text that has it too. -/
theorem mem_of_afterWord?_foldLetter {d : Char} {word cs rest : List Char}
    (h : afterWord? foldLetter word cs = some rest) (hd : d ∈ word) (hcase : d.isLower = false) : d ∈ cs := by
  obtain ⟨xs, rfl, rfl⟩ := afterWord?_eq_some_iff.mp h
  obtain ⟨c, hc, hfold⟩ := List.mem_map.mp hd
  rw [← eq_of_foldLetter_eq hcase hfold]
  exact List.mem_append_left _ hc

end CommandDoc.Text
