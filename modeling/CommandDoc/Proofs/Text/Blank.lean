import Mathlib.Data.List.DropRight
import CommandDoc.Text.Blank

/-!
# Laws of trimming and cutting

Trimming and cutting are instances of general list operations, whose laws apply to them.

Main definitions:

- `unwords`: words with one space between two neighbours.
- `IsWord`: a text that is one word.

Main results:

- Theorem `trim_eq_self_iff`: a text is trimmed exactly if it is at both ends.
- Theorem `trimEnd_append`: the end of a text is trimmed in what stands last.
- Theorem `infix_trim_iff`: trimming removes no part of a text that is trimmed itself.
- Theorem `nonemptyFields_intercalate`: texts can be put together and taken apart again.
- Theorem `collapse_unwords`: words with single spaces between them are collapsed already.
-/

namespace CommandDoc.Text

/-! ## Runs -/

section Runs

variable {p : Char → Bool} {run rest : List Char}

/-- A run is taken up to the first character that does not belong to it. -/
theorem takeWhile_append_of_head? (hrun : ∀ c ∈ run, p c = true) (hrest : ∀ c ∈ rest.head?, p c = false) :
    (run ++ rest).takeWhile p = run := by
  rw [List.takeWhile_append_of_pos hrun]
  cases rest with
  | nil => exact List.append_nil _
  | cons c rest => rw [List.takeWhile_cons_of_neg (by simp [hrest c rfl]), List.append_nil]

/-- What is dropped from a text is a run of characters, up to the first that does not belong to it. -/
theorem dropWhile_append_of_head? (hrun : ∀ c ∈ run, p c = true) (hrest : ∀ c ∈ rest.head?, p c = false) :
    (run ++ rest).dropWhile p = rest := by
  rw [List.dropWhile_append_of_pos hrun]
  cases rest with
  | nil => rfl
  | cons c rest => exact List.dropWhile_cons_of_neg (by simp [hrest c rfl])

end Runs

/-! ## Trimming -/

/-- Dropping a final run is the same from either end. -/
theorem dropTail_eq_rdropWhile (p : Char → Bool) (cs : List Char) : dropTail p cs = cs.rdropWhile p := by
  induction cs using List.reverseRecOn with
  | nil => rfl
  | append_singleton cs c ih => rw [dropTail_concat, List.rdropWhile_concat, ih]

/-- A text that does not start with a blank keeps its start. -/
theorem trimStart_cons {c : Char} (h : isBlank c = false) (cs : List Char) :
    trimStart (c :: cs) = c :: cs :=
  List.dropWhile_cons_of_neg (by rw [h]; exact Bool.false_ne_true)

/-- A blank at the start is taken away. -/
theorem trimStart_cons_blank {c : Char} (h : isBlank c = true) (cs : List Char) :
    trimStart (c :: cs) = trimStart cs :=
  List.dropWhile_cons_of_pos h

/-- A blank at the start does not matter to what is trimmed. -/
theorem trim_cons_blank {c : Char} (h : isBlank c = true) (cs : List Char) : trim (c :: cs) = trim cs := by
  rw [trim, trimStart_cons_blank h, trim]

/-- The end of a text is trimmed in what stands last. -/
theorem trimEnd_append (xs : List Char) {ys : List Char} (h : trimEnd ys ≠ []) :
    trimEnd (xs ++ ys) = xs ++ trimEnd ys := by
  induction xs with
  | nil => rfl
  | cons x xs ih =>
    have hne : xs ++ trimEnd ys ≠ [] := by simp [h]
    rw [trimEnd] at ih ⊢
    rw [List.cons_append, dropTail, ih]
    split
    · next hnil => exact absurd hnil hne
    · rfl

/-- A character that is not blank protects all that is in front of it. -/
theorem trimEnd_cons {c : Char} (h : isBlank c = false) (cs : List Char) :
    trimEnd (c :: cs) = c :: trimEnd cs := by
  rw [trimEnd, dropTail]
  split
  · next hnil => rw [h, trimEnd, hnil]; rfl
  · rw [trimEnd]

/-- Nothing is left to be trimmed at an end that was trimmed. -/
theorem trimEnd_trimEnd (cs : List Char) : trimEnd (trimEnd cs) = trimEnd cs := by
  rw [trimEnd, dropTail_eq_rdropWhile, trimEnd, dropTail_eq_rdropWhile, List.rdropWhile_idempotent]

/-- The two ends of a text are trimmed in either order. -/
theorem trimStart_trimEnd (cs : List Char) : trimStart (trimEnd cs) = trim cs := by
  induction cs with
  | nil => rfl
  | cons c cs ih =>
    cases hc : isBlank c with
    | true =>
      rw [trim_cons_blank hc, ← ih, trimEnd, dropTail, ← trimEnd]
      split
      · next hnil => rw [if_pos hc, hnil]
      · exact trimStart_cons_blank hc _
    | false => rw [trimEnd_cons hc, trimStart_cons hc, trim, trimStart_cons hc, trimEnd_cons hc]

/-- A text that is trimmed at its end is trimmed like the whole. -/
theorem trim_trimEnd (cs : List Char) : trim (trimEnd cs) = trim cs := by
  rw [trim, trimStart_trimEnd, trim, trimEnd_trimEnd]

/-- Trimming the end leaves a start of the text. -/
theorem trimEnd_isPrefix (cs : List Char) : trimEnd cs <+: cs := by
  rw [trimEnd, dropTail_eq_rdropWhile]
  exact List.rdropWhile_prefix isBlank cs

/-- Trimming only takes characters away. -/
theorem trim_sublist (cs : List Char) : (trim cs).Sublist cs :=
  (trimEnd_isPrefix _).sublist.trans (List.dropWhile_sublist _)

/-- A text without blanks keeps its end. -/
theorem trimEnd_of_forall_not_isBlank {cs : List Char} (h : ∀ c ∈ cs, isBlank c = false) :
    trimEnd cs = cs := by
  rw [trimEnd, dropTail_eq_rdropWhile, List.rdropWhile_eq_self_iff]
  intro hne
  rw [h _ (List.getLast_mem hne)]
  exact Bool.false_ne_true

/-- Texts that are not empty do not become empty when they are put together. -/
theorem intercalate_ne_nil {gap : List Char} {xs : List (List Char)} (hne : xs ≠ [])
    (h : ∀ x ∈ xs, x ≠ []) : List.intercalate gap xs ≠ [] := by
  obtain ⟨x, rest, rfl⟩ := List.exists_cons_of_ne_nil hne
  have hx := h x List.mem_cons_self
  cases rest with
  | nil => rwa [List.intercalate_singleton]
  | cons y ys =>
    rw [List.intercalate_cons_cons, List.append_assoc]
    exact List.append_ne_nil_of_left_ne_nil hx _

/-- Texts that end without blanks do so when they are put together. -/
theorem trimEnd_intercalate {gap : List Char} {xs : List (List Char)} (hne : ∀ x ∈ xs, x ≠ [])
    (h : ∀ x ∈ xs, trimEnd x = x) :
    trimEnd (List.intercalate gap xs) = List.intercalate gap xs := by
  induction xs with
  | nil => rfl
  | cons x xs ih =>
    have hothers : ∀ y ∈ xs, y ≠ [] := fun y hy => hne y (List.mem_cons_of_mem _ hy)
    have hrest := ih hothers fun y hy => h y (List.mem_cons_of_mem _ hy)
    cases xs with
    | nil =>
      rw [List.intercalate_singleton]
      exact h x List.mem_cons_self
    | cons y ys =>
      have hmore : List.intercalate gap (y :: ys) ≠ [] := intercalate_ne_nil (by simp) hothers
      rw [List.intercalate_cons_cons, trimEnd_append _ (by rw [hrest]; exact hmore), hrest]

/-- Trimming takes away blanks only. -/
theorem mem_trim {c : Char} {cs : List Char} (hc : c ∈ cs) (h : isBlank c = false) : c ∈ trim cs := by
  have hstart : c ∈ trimStart cs := by
    rw [← List.takeWhile_append_dropWhile (p := isBlank) (l := cs)] at hc
    rcases List.mem_append.mp hc with hc | hc
    · exact absurd (List.mem_takeWhile_imp hc) (by rw [h]; exact Bool.false_ne_true)
    · exact hc
  rw [← List.rdropWhile_append_rtakeWhile (p := isBlank) (l := trimStart cs)] at hstart
  rcases List.mem_append.mp hstart with hc | hc
  · rw [trim, trimEnd, dropTail_eq_rdropWhile]
    exact hc
  · exact absurd (List.mem_rtakeWhile_imp hc) (by rw [h]; exact Bool.false_ne_true)

/-- A text is trimmed exactly if it is at both ends. -/
theorem trim_eq_self_iff {cs : List Char} : trim cs = cs ↔ trimStart cs = cs ∧ trimEnd cs = cs := by
  constructor
  · intro h
    have hlength : cs.length ≤ (trimStart cs).length := by
      have hprefix := trimEnd_isPrefix (trimStart cs)
      rw [← trim, h] at hprefix
      exact hprefix.length_le
    have hstart : trimStart cs = cs := (List.dropWhile_suffix isBlank).eq_of_length_le hlength
    rw [trim, hstart] at h
    exact ⟨hstart, h⟩
  · rintro ⟨hstart, hend⟩
    rw [trim, hstart, hend]

/-- What is left of a text without the blanks at its start does not start with one. -/
theorem isBlank_eq_false_of_trimStart_eq {c : Char} {cs rest : List Char} (h : trimStart cs = c :: rest) :
    isBlank c = false := by
  induction cs with
  | nil => cases h
  | cons d cs ih =>
    cases hd : isBlank d with
    | true => exact ih (by rw [← trimStart_cons_blank hd, h])
    | false =>
      rw [trimStart_cons hd] at h
      cases h
      exact hd

/-- The start of a text is trimmed in what stands first. -/
theorem trimStart_append {xs : List Char} (hne : xs ≠ []) (h : trimStart xs = xs) (ys : List Char) :
    trimStart (xs ++ ys) = xs ++ ys := by
  obtain ⟨x, xs, rfl⟩ := List.exists_cons_of_ne_nil hne
  exact trimStart_cons (isBlank_eq_false_of_trimStart_eq h) _

/-- Trimmed texts stay trimmed when they are put together. -/
theorem trim_intercalate {gap : List Char} {xs : List (List Char)} (hne : ∀ x ∈ xs, x ≠ [])
    (h : ∀ x ∈ xs, trim x = x) : trim (List.intercalate gap xs) = List.intercalate gap xs := by
  refine trim_eq_self_iff.mpr ⟨?_, trimEnd_intercalate hne fun x hx => (trim_eq_self_iff.mp (h x hx)).2⟩
  cases xs with
  | nil => rfl
  | cons x xs =>
    have hx := (trim_eq_self_iff.mp (h x List.mem_cons_self)).1
    cases xs with
    | nil => rwa [List.intercalate_singleton]
    | cons y ys =>
      rw [List.intercalate_cons_cons, List.append_assoc]
      exact trimStart_append (hne x List.mem_cons_self) hx _

/-- A text without blanks is not trimmed. -/
theorem trim_of_forall_not_isBlank {cs : List Char} (h : ∀ c ∈ cs, isBlank c = false) : trim cs = cs := by
  refine trim_eq_self_iff.mpr ⟨?_, trimEnd_of_forall_not_isBlank h⟩
  cases cs with
  | nil => rfl
  | cons c cs => exact trimStart_cons (h c List.mem_cons_self) cs

/-- A text between two characters that are not blank is trimmed. -/
theorem trim_surround {c d : Char} (hc : isBlank c = false) (hd : isBlank d = false) (cs : List Char) :
    trim (c :: (cs ++ [d])) = c :: (cs ++ [d]) := by
  have hlast : trimEnd [d] = [d] := trimEnd_of_forall_not_isBlank (List.forall_mem_singleton.mpr hd)
  have hend : trimEnd (c :: (cs ++ [d])) = c :: (cs ++ [d]) := by
    rw [← List.cons_append, trimEnd_append _ (by simp [hlast]), hlast]
  exact trim_eq_self_iff.mpr ⟨trimStart_cons hc _, hend⟩

/-- Blanks behind a text are trimmed away. -/
theorem trimEnd_append_of_isBlank {gap : List Char} (hgap : ∀ c ∈ gap, isBlank c = true) (xs : List Char) :
    trimEnd (xs ++ gap) = trimEnd xs := by
  induction gap using List.reverseRecOn with
  | nil => rw [List.append_nil]
  | append_singleton gap c ih =>
    rw [← List.append_assoc, trimEnd, dropTail_concat, if_pos (hgap c (by simp))]
    exact ih fun d hd => hgap d (by simp [hd])

/-- Blanks behind a text do not matter to what is trimmed. -/
theorem trim_append_of_isBlank {gap : List Char} (hgap : ∀ c ∈ gap, isBlank c = true) (xs : List Char) :
    trim (xs ++ gap) = trim xs := by
  rw [← trimStart_trimEnd, trimEnd_append_of_isBlank hgap, trimStart_trimEnd]

/-- Blanks in front of a text are trimmed away. -/
theorem trim_append_left_of_isBlank {gap : List Char} (hgap : ∀ c ∈ gap, isBlank c = true) (xs : List Char) :
    trim (gap ++ xs) = trim xs := by
  rw [trim, trimStart, List.dropWhile_append_of_pos hgap, ← trimStart, ← trim]

/-- The end of a text is trimmed behind a part that does not end with a blank. -/
theorem trimEnd_append_left {xs : List Char} (h : trimEnd xs = xs) (ys : List Char) :
    trimEnd (xs ++ ys) = xs ++ trimEnd ys := by
  by_cases hys : trimEnd ys = []
  · have hblank : ∀ c ∈ ys, isBlank c = true := by
      rw [trimEnd, dropTail_eq_rdropWhile] at hys
      exact List.rdropWhile_eq_nil_iff.mp hys
    rw [hys, List.append_nil, trimEnd_append_of_isBlank hblank, h]
  · exact trimEnd_append xs hys

/-- A text is what is left of it when it is trimmed, with blanks in front of it and behind it. -/
theorem exists_eq_append_trim (cs : List Char) :
    ∃ front back, (∀ c ∈ front, isBlank c = true) ∧ (∀ c ∈ back, isBlank c = true) ∧
      cs = front ++ (trim cs ++ back) := by
  refine ⟨cs.takeWhile isBlank, (trimStart cs).rtakeWhile isBlank, fun c hc => List.mem_takeWhile_imp hc,
    fun c hc => List.mem_rtakeWhile_imp hc, ?_⟩
  rw [trim, trimEnd, dropTail_eq_rdropWhile, List.rdropWhile_append_rtakeWhile, trimStart,
    List.takeWhile_append_dropWhile]

/-- What is trimmed stands in the text as it is. -/
theorem trim_isInfix (cs : List Char) : trim cs <:+: cs := by
  obtain ⟨front, back, -, -, hcs⟩ := exists_eq_append_trim cs
  exact ⟨front, back, by rw [List.append_assoc, ← hcs]⟩

/-- Nothing is left to be trimmed at a start that was trimmed. -/
theorem trimStart_trimStart (cs : List Char) : trimStart (trimStart cs) = trimStart cs :=
  List.dropWhile_idempotent _ cs

/-- Trimming again changes nothing. -/
theorem trim_trim (cs : List Char) : trim (trim cs) = trim cs := by
  calc trim (trim cs) = trim (trimStart cs) := trim_trimEnd (trimStart cs)
    _ = trim cs := by rw [trim, trimStart_trimStart, trim]

/-- Every character that is not blank stands in the trimmed text as often as before. -/
theorem count_trim {c : Char} (h : isBlank c = false) (cs : List Char) : (trim cs).count c = cs.count c := by
  obtain ⟨front, back, hfront, hback, hcs⟩ := exists_eq_append_trim cs
  have hnot : ∀ gap : List Char, (∀ d ∈ gap, isBlank d = true) → gap.count c = 0 := by
    intro gap hgap
    rw [List.count_eq_zero]
    intro hc
    rw [hgap c hc] at h
    cases h
  rw [hcs, List.count_append, List.count_append, hnot front hfront, hnot back hback, ← hcs]
  omega

/-- Trimming removes no part of a text that is trimmed itself. -/
theorem infix_trim_iff {word : List Char} (hne : word ≠ []) (h : trim word = word) {cs : List Char} :
    word <:+: trim cs ↔ word <:+: cs := by
  rcases trim_eq_self_iff.mp h with ⟨hstart, hend⟩
  constructor
  · exact fun hword => hword.trans (trim_isInfix cs)
  · rintro ⟨front, back, rfl⟩
    have hfront : ∃ kept, trimStart (front ++ word ++ back) = kept ++ (word ++ back) := by
      rw [List.append_assoc, trimStart, List.dropWhile_append]
      by_cases hall : (front.dropWhile isBlank).isEmpty = true
      · rw [if_pos hall]
        exact ⟨[], trimStart_append hne hstart back⟩
      · rw [if_neg hall]
        exact ⟨_, rfl⟩
    rcases hfront with ⟨kept, hkept⟩
    have hback : trimEnd (word ++ back) = word ++ trimEnd back := trimEnd_append_left hend back
    rw [trim, hkept, trimEnd_append _ (by simp [hback, hne]), hback]
    exact ⟨kept, trimEnd back, by simp⟩

/-! ## Cutting -/

/-- Cutting a text is splitting it as a list. -/
theorem fields_eq_splitOnP (sep : Char → Bool) (cs : List Char) : fields sep cs = cs.splitOnP sep := by
  induction cs with
  | nil => rw [fields, List.splitOnP_nil]
  | cons c cs ih =>
    rw [fields, List.splitOnP_cons_eq_if_modifyHead, ← ih]
    split
    · rfl
    · cases hfields : fields sep cs with
      | nil => exact absurd hfields (fields_ne_nil sep cs)
      | cons field rest => rfl

/-- Texts without a character, put together with it, are cut at it again. -/
theorem fields_intercalate {c : Char} {xs : List (List Char)} (hxs : ∀ x ∈ xs, c ∉ x) (hne : xs ≠ []) :
    fields (· == c) (List.intercalate [c] xs) = xs := by
  rw [fields_eq_splitOnP, ← List.splitOn_eq_splitOnP]
  exact List.splitOn_intercalate c hxs hne

/-- A character that is in no text and not in the gap is not in what is put together. -/
theorem not_mem_intercalate {c : Char} {gap : List Char} {xs : List (List Char)} (hgap : c ∉ gap)
    (hxs : ∀ x ∈ xs, c ∉ x) : c ∉ List.intercalate gap xs := by
  induction xs with
  | nil => exact List.not_mem_nil
  | cons x xs ih =>
    have hx := hxs x List.mem_cons_self
    have hrest := ih fun y hy => hxs y (List.mem_cons_of_mem _ hy)
    cases xs with
    | nil => rwa [List.intercalate_singleton]
    | cons y ys =>
      rw [List.intercalate_cons_cons, List.mem_append, List.mem_append]
      exact fun h => h.elim (fun h => h.elim hx hgap) hrest

/-- A character at which the text is not cut stands in a field. -/
theorem exists_mem_fields {sep : Char → Bool} {c : Char} {cs : List Char} (hc : c ∈ cs)
    (h : sep c = false) : ∃ field ∈ fields sep cs, c ∈ field := by
  induction cs with
  | nil => simp at hc
  | cons d cs ih =>
    rw [fields]
    rcases List.mem_cons.mp hc with rfl | hcs
    · rw [if_neg (by simp [h])]
      split
      · simp
      · simp
    · rcases ih hcs with ⟨field, hfield, hmem⟩
      split
      · exact ⟨field, List.mem_cons_of_mem _ hfield, hmem⟩
      · split
        · next hnil => exact absurd hnil (fields_ne_nil sep cs)
        · next first rest heq =>
          rw [heq] at hfield
          rcases List.mem_cons.mp hfield with rfl | hrest
          · exact ⟨_, List.mem_cons_self, List.mem_cons_of_mem _ hmem⟩
          · exact ⟨field, List.mem_cons_of_mem _ hrest, hmem⟩

section NonemptyFields

variable {sep : Char → Bool}

/-- A separator splits a text into fields before it and fields behind it. -/
theorem nonemptyFields_append_cons {c : Char} (hc : sep c = true) (xs ys : List Char) :
    nonemptyFields sep (xs ++ c :: ys) = nonemptyFields sep xs ++ nonemptyFields sep ys := by
  simp only [nonemptyFields, fields_eq_splitOnP]
  rw [List.splitOnP_append_cons xs ys hc, List.filter_append]

/-- Separators in front of a text give no fields. -/
theorem nonemptyFields_append_of_sep {gap : List Char} (hgap : ∀ c ∈ gap, sep c = true)
    (ys : List Char) : nonemptyFields sep (gap ++ ys) = nonemptyFields sep ys := by
  induction gap with
  | nil => rfl
  | cons c gap ih =>
    have hc := hgap c List.mem_cons_self
    have hcons := nonemptyFields_append_cons hc [] (gap ++ ys)
    rw [List.nil_append] at hcons
    rw [List.cons_append, hcons, ih fun d hd => hgap d (List.mem_cons_of_mem _ hd)]
    rfl

/-- A text without separators is one field. -/
theorem nonemptyFields_of_forall_not_sep {xs : List Char} (hne : xs ≠ [])
    (hxs : ∀ c ∈ xs, sep c = false) : nonemptyFields sep xs = [xs] := by
  rw [nonemptyFields, fields_eq_splitOnP, List.splitOnP_eq_singleton hxs]
  simp [hne]

/-- Texts without separators, put together with separators between them, are the fields. -/
theorem nonemptyFields_intercalate {gap : List Char} (hgap : ∀ c ∈ gap, sep c = true) (hne : gap ≠ [])
    {xs : List (List Char)} (hxs : ∀ x ∈ xs, x ≠ [] ∧ ∀ c ∈ x, sep c = false) :
    nonemptyFields sep (List.intercalate gap xs) = xs := by
  induction xs with
  | nil => rfl
  | cons x xs ih =>
    obtain ⟨hx, hfree⟩ := hxs x List.mem_cons_self
    have hrest := ih fun y hy => hxs y (List.mem_cons_of_mem _ hy)
    cases xs with
    | nil => rw [List.intercalate_singleton, nonemptyFields_of_forall_not_sep hx hfree]
    | cons y ys =>
      obtain ⟨c, gap, rfl⟩ := List.exists_cons_of_ne_nil hne
      rw [List.intercalate_cons_cons, List.append_assoc, List.cons_append,
        nonemptyFields_append_cons (hgap c List.mem_cons_self), nonemptyFields_of_forall_not_sep hx hfree,
        nonemptyFields_append_of_sep fun d hd => hgap d (List.mem_cons_of_mem _ hd), hrest]
      rfl

end NonemptyFields

/-! ## Words in a row -/

/-- Words with one space between two neighbours. -/
def unwords (ws : List (List Char)) : List Char :=
  List.intercalate [' '] ws

/-- Words with a space in front of each. -/
def spacedWords (ws : List (List Char)) : List Char :=
  ws.flatMap (' ' :: ·)

/-- Words with a space behind each. -/
def leadingWords (ws : List (List Char)) : List Char :=
  ws.flatMap (· ++ [' '])

/-- A single word stands without spaces. -/
theorem unwords_singleton (w : List Char) : unwords [w] = w :=
  List.intercalate_singleton

/-- Words behind the first one have a space in front of them. -/
theorem unwords_cons (w : List Char) (ws : List (List Char)) : unwords (w :: ws) = w ++ spacedWords ws := by
  induction ws generalizing w with
  | nil => rw [unwords_singleton, spacedWords, List.flatMap_nil, List.append_nil]
  | cons v vs ih =>
    rw [unwords, List.intercalate_cons_cons, ← unwords, ih, spacedWords, spacedWords, List.flatMap_cons,
      List.append_assoc]
    rfl

/-- Words with spaces in front stand behind each other without anything in between. -/
theorem spacedWords_append (vs ws : List (List Char)) :
    spacedWords (vs ++ ws) = spacedWords vs ++ spacedWords ws :=
  List.flatMap_append

/-- Words with spaces in front are a space and the words. -/
theorem spacedWords_eq {ws : List (List Char)} (hne : ws ≠ []) : spacedWords ws = ' ' :: unwords ws := by
  obtain ⟨w, ws, rfl⟩ := List.exists_cons_of_ne_nil hne
  rw [unwords_cons]
  rfl

/-- Words with spaces in front start with a space. -/
theorem head?_spacedWords (ws : List (List Char)) : ∀ c ∈ (spacedWords ws).head?, c = ' ' := by
  cases ws with
  | nil => exact fun _ h => by cases h
  | cons w ws => exact fun _ h => (Option.some.inj h).symm

/-- A space stands between the words of two lists. -/
theorem unwords_append {vs ws : List (List Char)} (hvs : vs ≠ []) (hws : ws ≠ []) :
    unwords (vs ++ ws) = unwords vs ++ ' ' :: unwords ws := by
  obtain ⟨v, vs, rfl⟩ := List.exists_cons_of_ne_nil hvs
  rw [List.cons_append, unwords_cons, unwords_cons, spacedWords_append, spacedWords_eq hws,
    List.append_assoc]

/-- A word stands behind the words in front of it, each with a space behind it, and before the others, each with one
in front. -/
theorem unwords_append_cons (ws : List (List Char)) (w : List Char) (vs : List (List Char)) :
    unwords (ws ++ w :: vs) = leadingWords ws ++ (w ++ spacedWords vs) := by
  induction ws with
  | nil => exact unwords_cons w vs
  | cons v ws ih =>
    rw [List.cons_append, unwords_cons, spacedWords_eq (by simp), ih, leadingWords, leadingWords,
      List.flatMap_cons, List.append_assoc, List.append_assoc]
    rfl

/-- Words with spaces behind them end with a space. -/
theorem getLast?_leadingWords (ws : List (List Char)) : ∀ c ∈ (leadingWords ws).getLast?, c = ' ' := by
  induction ws using List.reverseRecOn with
  | nil => simp [leadingWords]
  | append_singleton ws w _ => simp [leadingWords, eq_comm]

/-- Words that are put together already can be put together with others. -/
theorem unwords_append_unwords {vs : List (List Char)} (hvs : vs ≠ []) (us ws : List (List Char)) :
    unwords (us ++ unwords vs :: ws) = unwords (us ++ (vs ++ ws)) := by
  have hspaced : spacedWords (us ++ unwords vs :: ws) = spacedWords (us ++ (vs ++ ws)) := by
    have hmid : spacedWords (unwords vs :: ws) = spacedWords (vs ++ ws) := by
      rw [spacedWords, List.flatMap_cons, ← spacedWords_eq hvs, ← spacedWords, ← spacedWords_append]
    rw [spacedWords_append, hmid, ← spacedWords_append]
  rw [spacedWords_eq (by simp), spacedWords_eq (by simp [hvs])] at hspaced
  exact (List.cons.inj hspaced).2

/-- A character that is in no word, and no space, is not in the text of the words. -/
theorem not_mem_unwords {c : Char} (hc : c ≠ ' ') {ws : List (List Char)} (h : ∀ w ∈ ws, c ∉ w) :
    c ∉ unwords ws :=
  not_mem_intercalate (by simpa using hc) h

/-- The text of words holds spaces and the characters of the words. -/
theorem mem_unwords {c : Char} {ws : List (List Char)} (h : c ∈ unwords ws) :
    c = ' ' ∨ ∃ w ∈ ws, c ∈ w := by
  by_contra hnone
  rw [not_or, not_exists] at hnone
  exact not_mem_unwords hnone.1 (fun w hw hc => hnone.2 w ⟨hw, hc⟩) h

/-- Collapsing drops only blanks. -/
theorem mem_collapse {c : Char} {cs : List Char} (hc : c ∈ cs) (h : isBlank c = false) : c ∈ collapse cs := by
  rcases exists_mem_fields hc h with ⟨field, hfield, hmem⟩
  have hword : field ∈ words cs := by
    rw [words, nonemptyFields, List.mem_filter]
    exact ⟨hfield, by simpa using List.ne_nil_of_mem hmem⟩
  cases hwords : words cs with
  | nil => simp [hwords] at hword
  | cons w ws =>
    rw [hwords] at hword
    rw [collapse, hwords, ← unwords, unwords_cons, List.mem_append, spacedWords, List.mem_flatMap]
    rcases List.mem_cons.mp hword with rfl | hrest
    · exact Or.inl hmem
    · exact Or.inr ⟨field, hrest, List.mem_cons_of_mem _ hmem⟩

/-- Blanks in front of a text do not matter to what is collapsed. -/
theorem collapse_append_of_isBlank {gap : List Char} (hgap : ∀ c ∈ gap, isBlank c = true) (cs : List Char) :
    collapse (gap ++ cs) = collapse cs := by
  rw [collapse, words, nonemptyFields_append_of_sep hgap, ← words, ← collapse]

/-- A blank at the end does not matter either. -/
theorem collapse_concat_of_isBlank {c : Char} (hc : isBlank c = true) (cs : List Char) :
    collapse (cs ++ [c]) = collapse cs := by
  have hwords : words (cs ++ [c]) = words cs ++ words [] := nonemptyFields_append_cons hc cs []
  rw [collapse, hwords, show words [] = [] from rfl, List.append_nil, ← collapse]

section Words

variable {ws : List (List Char)}

/-- Words are found again in their text. -/
theorem words_unwords (hws : ∀ w ∈ ws, w ≠ [] ∧ ∀ c ∈ w, isBlank c = false) : words (unwords ws) = ws :=
  nonemptyFields_intercalate (List.forall_mem_singleton.mpr (by decide)) (List.cons_ne_nil _ _) hws

/-- Words with spaces behind them are found in front of the words of what follows. -/
theorem words_leadingWords_append (hws : ∀ w ∈ ws, w ≠ [] ∧ ∀ c ∈ w, isBlank c = false) (cs : List Char) :
    words (leadingWords ws ++ cs) = ws ++ words cs := by
  induction ws with
  | nil => rfl
  | cons w ws ih =>
    obtain ⟨hne, hfree⟩ := hws w List.mem_cons_self
    have hsplit : leadingWords (w :: ws) ++ cs = w ++ ' ' :: (leadingWords ws ++ cs) := by
      simp [leadingWords]
    rw [hsplit, words, nonemptyFields_append_cons (by decide), nonemptyFields_of_forall_not_sep hne hfree,
      ← words, ih fun v hv => hws v (List.mem_cons_of_mem _ hv)]
    rfl

/-- Words with spaces in front are found behind the words of what they follow. -/
theorem words_append_spacedWords (hws : ∀ w ∈ ws, w ≠ [] ∧ ∀ c ∈ w, isBlank c = false) (cs : List Char) :
    words (cs ++ spacedWords ws) = words cs ++ ws := by
  by_cases hempty : ws = []
  · rw [hempty, List.append_nil]
    exact congrArg words (List.append_nil cs)
  · rw [spacedWords_eq hempty, words, nonemptyFields_append_cons (by decide), ← words, ← words,
      words_unwords hws]

/-- The text of words is collapsed. -/
theorem collapse_unwords (hws : ∀ w ∈ ws, w ≠ [] ∧ ∀ c ∈ w, isBlank c = false) :
    collapse (unwords ws) = unwords ws := by
  rw [collapse, words_unwords hws, unwords]

/-- The text of words has no blanks at its ends. -/
theorem trim_unwords (hws : ∀ w ∈ ws, w ≠ [] ∧ ∀ c ∈ w, isBlank c = false) :
    trim (unwords ws) = unwords ws :=
  trim_intercalate (fun w hw => (hws w hw).1) fun w hw => trim_of_forall_not_isBlank (hws w hw).2

end Words

/-! ## Single words -/

/-- A word as it is typed: it is not empty and holds no blank. -/
def IsWord (word : String) : Prop :=
  word ≠ "" ∧ ∀ c ∈ word.toList, isBlank c = false

/-- Fields are words if the text is cut at blanks, whatever else it is cut at. -/
theorem isWord_of_mem_nonemptyFields {sep : Char → Bool} (hsep : ∀ c, isBlank c = true → sep c = true)
    {cs : List Char} {word : String} (h : word ∈ (nonemptyFields sep cs).map String.ofList) :
    IsWord word := by
  rcases List.mem_map.mp h with ⟨field, hfield, rfl⟩
  rw [nonemptyFields, List.mem_filter] at hfield
  refine ⟨by simpa using hfield.2, fun c hc => ?_⟩
  have hcut := not_sep_of_mem_fields hfield.1 (by simpa using hc)
  by_cases hblank : isBlank c = true
  · simp [hsep c hblank] at hcut
  · simpa using hblank

/-- The words of a text are words. -/
theorem isWord_of_mem_words {cs : List Char} {word : String} (h : word ∈ (words cs).map String.ofList) :
    IsWord word :=
  isWord_of_mem_nonemptyFields (fun _ hc => hc) h

/-- A word is no blank text. -/
theorem IsWord.isBlankText_eq_false {word : String} (h : IsWord word) : isBlankText word.toList = false := by
  rcases List.exists_cons_of_ne_nil (fun hnil => h.1 (String.toList_eq_nil_iff.mp hnil)) with ⟨c, cs, hcs⟩
  simp [isBlankText, hcs, h.2 c (by simp [hcs])]

end CommandDoc.Text
