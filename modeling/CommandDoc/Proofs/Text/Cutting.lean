import CommandDoc.Proofs.Text.Nesting

/-!
# Cutting loses nothing

A text is cut where the walk over it meets a separator outside quotes and parentheses.  There the walk stands as at
the start of a text, so every part is walked over like a text of its own, also where quotes and parentheses do not
match.

Main definitions:

- `weave`: parts with a character between two of them.
- `IsCutUp`: parts and separators that make up a text, cut at all the places where it has to be.

Main results:

- Theorem `cut_induction`: a text is a part without cuts, or such a part, a cut and a shorter text.
- Theorem `splitTopLevel_append_of_after`: a text is cut in front of a separator and behind it apart.
- Theorem `splitTopLevel_isCutUp_iff`: the parts of a text are its only ones, and each is its own only part.
-/

namespace CommandDoc.Text

section Cutting

variable {seps : List Char}

/-! ## Places of cuts -/

theorem isCut_start_iff {c : Char} : isCut seps .start c = true ↔ c ∈ seps ∧ c ∉ ['"', '(', ')'] := by
  simp only [isCut, beq_self_eq_true, Bool.true_and, Bool.and_eq_true, bne_iff_ne, ne_eq,
    List.contains_iff_mem, List.mem_cons, List.not_mem_nil, or_false, not_or]
  tauto

/-- A walk meets no cut, or there is a first one. -/
theorem passes_or_exists_cut (seps : List Char) (state : Nesting) (cs : List Char) :
    Passes (isCut seps) state cs ∨ ∃ part c rest, cs = part ++ c :: rest ∧
      Passes (isCut seps) state part ∧ isCut seps (state.after part) c = true := by
  induction cs generalizing state with
  | nil => exact Or.inl trivial
  | cons c cs ih =>
    cases hcut : isCut seps state c with
    | true => exact Or.inr ⟨[], c, cs, rfl, trivial, hcut⟩
    | false =>
      rcases ih (state.next c) with hpasses | ⟨part, d, rest, rfl, hpasses, hd⟩
      · exact Or.inl ⟨hcut, hpasses⟩
      · exact Or.inr ⟨c :: part, d, rest, rfl, ⟨hcut, hpasses⟩, hd⟩

/-- A text has no cut, or it is an enclosed part, a cut and a shorter text. -/
theorem cut_induction (seps : List Char) {motive : List Char → Prop}
    (hlast : ∀ part, Passes (isCut seps) .start part → motive part)
    (hcons : ∀ part c rest, IsEnclosed seps part → isCut seps .start c = true → motive rest →
      motive (part ++ c :: rest)) (cs : List Char) : motive cs := by
  induction hlength : cs.length using Nat.strong_induction_on generalizing cs with
  | _ n ih =>
    rcases passes_or_exists_cut seps .start cs with hpasses | ⟨part, c, rest, rfl, hpasses, hcut⟩
    · exact hlast cs hpasses
    · have hafter : Nesting.start.after part = .start := (isCut_state hcut).1
      rw [hafter] at hcut
      apply hcons part c rest ⟨hpasses, hafter⟩ hcut
      refine ih rest.length ?_ rest rfl
      rw [← hlength, List.length_append, List.length_cons]
      omega

/-! ## Parts -/

/-- A text without a cut is its only part. -/
theorem splitTopLevel_of_passes {cs : List Char} (h : Passes (isCut seps) .start cs) :
    splitTopLevel seps cs = [cs] := by
  have hsplit := splitFrom_append h []
  rw [List.append_nil] at hsplit
  rw [splitTopLevel, hsplit, splitFrom, List.modifyHead_cons, List.append_nil]

theorem passes_of_mem_splitTopLevel {cs part : List Char} (h : part ∈ splitTopLevel seps cs) :
    Passes (isCut seps) .start part := by
  induction cs using cut_induction seps with
  | hlast whole hpasses =>
    rw [splitTopLevel_of_passes hpasses, List.mem_singleton] at h
    rwa [h]
  | hcons first c rest hfirst hcut ih =>
    rw [hfirst.splitTopLevel_append_cons hcut] at h
    rcases List.mem_cons.mp h with rfl | hrest
    · exact hfirst.passes
    · exact ih hrest

/-- A separator where no quote and no parenthesis is open cuts, so what is in front of it and what is behind it
are cut apart. -/
theorem splitTopLevel_append_of_after {cs : List Char} (hafter : Nesting.start.after cs = .start) {sep : Char}
    (hsep : isCut seps .start sep = true) (ds : List Char) :
    splitTopLevel seps (cs ++ sep :: ds) = splitTopLevel seps cs ++ splitTopLevel seps ds := by
  induction cs using cut_induction seps with
  | hlast part hpasses =>
    have hpart : IsEnclosed seps part := ⟨hpasses, hafter⟩
    rw [hpart.splitTopLevel_append_cons hsep, hpart.splitTopLevel_eq, List.singleton_append]
  | hcons part c rest hpart hcut ih =>
    have hrest : Nesting.start.after rest = .start := by
      rw [Nesting.after_append, hpart.after_eq, Nesting.after, List.foldl_cons, (isCut_state hcut).2] at hafter
      exact hafter
    rw [List.append_assoc, List.cons_append, hpart.splitTopLevel_append_cons hcut, ih hrest,
      hpart.splitTopLevel_append_cons hcut, List.cons_append]

/-! ## Parts and separators together -/

/-- Parts in a row, with a character between two of them. -/
def weave : List (List Char) → List Char → List Char
  | part :: parts, cut :: cuts => part ++ cut :: weave parts cuts
  | parts, _ => parts.flatten

/-- A text is made up of parts with separators between them.  It is cut at the top level only, and at every
separator there. -/
structure IsCutUp (seps text : List Char) (parts : List (List Char)) (cuts : List Char) : Prop where
  /-- Parts and separators in turn give the text. -/
  weave_eq : weave parts cuts = text
  /-- There is a separator between two parts. -/
  length_eq : parts.length = cuts.length + 1
  /-- What stands between parts is a separator. -/
  mem_seps : ∀ cut ∈ cuts, cut ∈ seps
  /-- In front of a separator all quotes and parentheses are closed. -/
  closed : ∀ part ∈ parts.dropLast, Nesting.start.after part = .start
  /-- No part has a separator outside quotes and parentheses. -/
  uncut : ∀ part ∈ parts, Passes (isCut seps) .start part

theorem isCutUp_singleton {cs : List Char} (h : Passes (isCut seps) .start cs) : IsCutUp seps cs [cs] [] where
  weave_eq := List.flatten_singleton
  length_eq := rfl
  mem_seps := by simp
  closed := by simp
  uncut := List.forall_mem_singleton.mpr h

theorem IsCutUp.cons {text : List Char} {parts : List (List Char)} {cuts : List Char}
    (h : IsCutUp seps text parts cuts) {part : List Char} (hpart : IsEnclosed seps part) {cut : Char}
    (hcut : cut ∈ seps) : IsCutUp seps (part ++ cut :: text) (part :: parts) (cut :: cuts) where
  weave_eq := by rw [weave, h.weave_eq]
  length_eq := by rw [List.length_cons, List.length_cons, h.length_eq]
  mem_seps := List.forall_mem_cons.mpr ⟨hcut, h.mem_seps⟩
  closed := by
    have hne : parts ≠ [] := List.length_pos_iff.mp (by rw [h.length_eq]; omega)
    rw [List.dropLast_cons_of_ne_nil hne]
    exact List.forall_mem_cons.mpr ⟨hpart.after_eq, h.closed⟩
  uncut := List.forall_mem_cons.mpr ⟨hpart.passes, h.uncut⟩

theorem exists_isCutUp_splitTopLevel (seps text : List Char) :
    ∃ cuts, IsCutUp seps text (splitTopLevel seps text) cuts := by
  induction text using cut_induction seps with
  | hlast part hpasses =>
    rw [splitTopLevel_of_passes hpasses]
    exact ⟨[], isCutUp_singleton hpasses⟩
  | hcons part c rest hpart hcut ih =>
    obtain ⟨cuts, hcuts⟩ := ih
    rw [hpart.splitTopLevel_append_cons hcut]
    exact ⟨c :: cuts, hcuts.cons hpart (isCut_start_iff.mp hcut).1⟩

/-- A text is cut up in one way. -/
theorem IsCutUp.splitTopLevel_eq (hseps : ∀ c ∈ seps, c ∉ ['"', '(', ')']) {text : List Char}
    {parts : List (List Char)} {cuts : List Char} (h : IsCutUp seps text parts cuts) :
    splitTopLevel seps text = parts := by
  induction parts generalizing text cuts with
  | nil => cases h.length_eq
  | cons part parts ih =>
    rw [← h.weave_eq]
    have hpasses := h.uncut part List.mem_cons_self
    cases cuts with
    | nil =>
      have hnil : parts = [] := by simpa using h.length_eq
      rw [hnil, weave, List.flatten_singleton, splitTopLevel_of_passes hpasses]
      simp
    | cons cut cuts =>
      have hlength : parts.length = cuts.length + 1 := by simpa using h.length_eq
      have hne : parts ≠ [] := List.length_pos_iff.mp (by omega)
      have hclosed := h.closed
      rw [List.dropLast_cons_of_ne_nil hne, List.forall_mem_cons] at hclosed
      have hcut : cut ∈ seps := h.mem_seps cut List.mem_cons_self
      have hrest : splitTopLevel seps (weave parts cuts) = parts :=
        ih { weave_eq := rfl
             length_eq := hlength
             mem_seps := fun c hc => h.mem_seps c (List.mem_cons_of_mem _ hc)
             closed := hclosed.2
             uncut := fun p hp => h.uncut p (List.mem_cons_of_mem _ hp) }
      have hpart : IsEnclosed seps part := ⟨hpasses, hclosed.1⟩
      rw [weave, hpart.splitTopLevel_append_cons (isCut_start_iff.mpr ⟨hcut, hseps cut hcut⟩), hrest]

/-- The parts of a text are the only ones that make it up with separators at the top level between them, every
part is its own only part, and a separator at the top level can be cut at first. -/
theorem splitTopLevel_isCutUp_iff (hseps : ∀ c ∈ seps, c ∉ ['"', '(', ')']) (text : List Char) :
    (∀ parts, splitTopLevel seps text = parts ↔ ∃ cuts, IsCutUp seps text parts cuts) ∧
      (∀ part ∈ splitTopLevel seps text, splitTopLevel seps part = [part]) ∧
      ∀ front back sep, sep ∈ seps → Nesting.start.after front = .start →
        splitTopLevel seps (front ++ sep :: back) = splitTopLevel seps front ++ splitTopLevel seps back := by
  refine ⟨fun parts => ⟨?_, ?_⟩, fun part hpart => ?_, fun front back sep hsep hafter => ?_⟩
  · rintro rfl
    exact exists_isCutUp_splitTopLevel seps text
  · rintro ⟨cuts, hcuts⟩
    exact hcuts.splitTopLevel_eq hseps
  · exact splitTopLevel_of_passes (passes_of_mem_splitTopLevel hpart)
  · exact splitTopLevel_append_of_after hafter (isCut_start_iff.mpr ⟨hsep, hseps sep hsep⟩) back

/-- An open quote keeps the last separator, and a closing parenthesis without a partner keeps none. -/
theorem splitTopLevel_isCutUp_iff_openQuote :
    (∀ c ∈ [';', ','], c ∉ ['"', '(', ')']) ∧
      splitTopLevel [';', ','] "a), p(1, 2); \"b;".toList = ["a)".toList, " p(1, 2)".toList, " \"b;".toList] ∧
      (∃ cuts, IsCutUp [';', ','] "a), p(1, 2); \"b;".toList
        ["a)".toList, " p(1, 2)".toList, " \"b;".toList] cuts) ∧
      splitTopLevel [';', ','] " \"b;".toList = [" \"b;".toList] ∧
      Nesting.start.after "a), p(1, 2)".toList = .start ∧
      splitTopLevel [';', ','] ("a), p(1, 2)".toList ++ ';' :: " \"b;".toList)
        = splitTopLevel [';', ','] "a), p(1, 2)".toList ++ splitTopLevel [';', ','] " \"b;".toList := by
  have hseps : ∀ c ∈ [';', ','], c ∉ ['"', '(', ')'] :=
    List.forall_mem_cons.mpr ⟨by decide, List.forall_mem_singleton.mpr (by decide)⟩
  obtain ⟨hiff, hparts, happend⟩ := splitTopLevel_isCutUp_iff hseps "a), p(1, 2); \"b;".toList
  have hsplit : splitTopLevel [';', ','] "a), p(1, 2); \"b;".toList
      = ["a)".toList, " p(1, 2)".toList, " \"b;".toList] := by decide
  have hafter : Nesting.start.after "a), p(1, 2)".toList = .start := by decide
  exact ⟨hseps, hsplit, (hiff _).mp hsplit, hparts _ (by rw [hsplit]; simp), hafter,
    happend _ _ ';' (by decide) hafter⟩

end Cutting

end CommandDoc.Text
