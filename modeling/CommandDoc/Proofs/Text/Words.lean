import CommandDoc.Proofs.Text.Nesting

/-!
# The words of texts in a row

Where a blank stands between two texts, their words are those of the one and then those of the other.  Elsewhere
the last word of the one and the first word of the other grow together.  So what is said about words survives
trimming and collapsing, and a text can be cut into its words from the front.

Main results:

- Theorems `words_append_of_head?` and `words_append_of_getLast?`: a blank between two texts.
- Theorem `exists_mem_words_append`: texts without a blank between them.
- Theorem `exists_of_mem_words`: where a word stands.
- Theorem `words_unescapeQuotes`: escaped quotes are read word by word.
-/

namespace CommandDoc.Text

/-! ## Runs up to a character -/

section Runs

variable {p : Char → Bool} {rest : List Char}

/-- What is taken from a text does not reach into text behind it that stops the run. -/
theorem takeWhile_append_of_stop (h : ∀ c ∈ rest.head?, p c = false) (xs : List Char) :
    (xs ++ rest).takeWhile p = xs.takeWhile p := by
  induction xs with
  | nil =>
    cases rest with
    | nil => rfl
    | cons c rest => exact List.takeWhile_cons_of_neg (by simp [h c rfl])
  | cons c xs ih => rw [List.cons_append, List.takeWhile_cons, List.takeWhile_cons, ih]

/-- Nor is anything of that text dropped. -/
theorem dropWhile_append_of_stop (h : ∀ c ∈ rest.head?, p c = false) (xs : List Char) :
    (xs ++ rest).dropWhile p = xs.dropWhile p ++ rest := by
  induction xs with
  | nil =>
    cases rest with
    | nil => rfl
    | cons c rest => exact List.dropWhile_cons_of_neg (by simp [h c rfl])
  | cons c xs ih =>
    rw [List.cons_append, List.dropWhile_cons, List.dropWhile_cons, ih]
    split <;> rfl

end Runs

/-! ## Words at a blank -/

/-- A text is a run: no blank stands in it. -/
def IsRun (cs : List Char) : Prop :=
  ∀ c ∈ cs, isBlank c = false

theorem isRun_nil : IsRun [] :=
  List.forall_mem_nil _

/-- What stands in front of the first blank is a run. -/
theorem isRun_takeWhile (cs : List Char) : IsRun (cs.takeWhile fun c => !isBlank c) := by
  intro c hc
  simpa using List.mem_takeWhile_imp hc

/-- A run is one word, if there is anything in it. -/
theorem words_of_isRun {cs : List Char} (h : IsRun cs) : words cs = if cs = [] then [] else [cs] := by
  by_cases hempty : cs = []
  · rw [if_pos hempty, hempty]
    rfl
  · rw [if_neg hempty, words, nonemptyFields_of_forall_not_sep hempty h]

/-- The only word of a run is the run itself. -/
theorem mem_words_of_isRun {cs w : List Char} (h : IsRun cs) : w ∈ words cs ↔ w = cs ∧ cs ≠ [] := by
  rw [words_of_isRun h]
  by_cases hempty : cs = []
  · simp [hempty]
  · simp [hempty]

/-- No word is empty. -/
theorem ne_nil_of_mem_words {cs w : List Char} (h : w ∈ words cs) : w ≠ [] := by
  simpa using (List.mem_filter.mp h).2

/-- No word holds a blank. -/
theorem isRun_of_mem_words {cs w : List Char} (h : w ∈ words cs) : IsRun w :=
  fun _ hc => not_isBlank_of_mem_words h hc

/-- A blank separates the words before it from those behind it. -/
theorem words_append_cons {c : Char} (hc : isBlank c = true) (xs ys : List Char) :
    words (xs ++ c :: ys) = words xs ++ words ys :=
  nonemptyFields_append_cons hc xs ys

/-- A blank in front of a text gives no word. -/
theorem words_cons_blank {c : Char} (hc : isBlank c = true) (cs : List Char) : words (c :: cs) = words cs :=
  words_append_cons hc [] cs

/-- Blanks in front of a text give no words. -/
theorem words_append_of_isBlank {gap : List Char} (hgap : ∀ c ∈ gap, isBlank c = true) (cs : List Char) :
    words (gap ++ cs) = words cs :=
  nonemptyFields_append_of_sep hgap cs

/-- A blank at the start of the second of two texts keeps their words apart. -/
theorem words_append_of_head? (xs : List Char) {ys : List Char} (h : ∀ c ∈ ys.head?, isBlank c = true) :
    words (xs ++ ys) = words xs ++ words ys := by
  cases ys with
  | nil => simp [show words [] = [] from rfl]
  | cons c ys => rw [words_append_cons (h c rfl), words_cons_blank (h c rfl)]

/-- So does a blank at the end of the first. -/
theorem words_append_of_getLast? {xs : List Char} (h : ∀ c ∈ xs.getLast?, isBlank c = true) (ys : List Char) :
    words (xs ++ ys) = words xs ++ words ys := by
  induction xs using List.reverseRecOn with
  | nil => rfl
  | append_singleton xs c _ =>
    have hc : isBlank c = true := h c (by simp)
    rw [List.append_assoc, List.singleton_append, words_append_cons hc, words_append_cons hc,
      show words [] = [] from rfl, List.append_nil]

/-- Trimming the start keeps the words. -/
theorem words_trimStart (cs : List Char) : words (trimStart cs) = words cs := by
  have hgap : ∀ c ∈ cs.takeWhile isBlank, isBlank c = true := fun c hc => List.mem_takeWhile_imp hc
  have hwords := words_append_of_isBlank hgap (trimStart cs)
  rwa [trimStart, List.takeWhile_append_dropWhile, ← trimStart, eq_comm] at hwords

/-- Trimming the end keeps the words. -/
theorem words_trimEnd (cs : List Char) : words (trimEnd cs) = words cs := by
  have hgap : ∀ c ∈ cs.rtakeWhile isBlank, isBlank c = true := fun c hc => List.mem_rtakeWhile_imp hc
  have hwords := words_append_of_head? (cs.rdropWhile isBlank) fun c hc => hgap c (List.mem_of_mem_head? hc)
  have hblank := words_append_of_isBlank hgap []
  rw [List.append_nil] at hblank
  rw [List.rdropWhile_append_rtakeWhile, hblank, show words [] = [] from rfl, List.append_nil] at hwords
  rw [trimEnd, dropTail_eq_rdropWhile, hwords]

/-- Trimming keeps the words. -/
theorem words_trim (cs : List Char) : words (trim cs) = words cs := by
  rw [trim, words_trimEnd, words_trimStart]

/-- So does collapsing blanks. -/
theorem words_collapse (cs : List Char) : words (collapse cs) = words cs :=
  words_unwords fun _ hw => ⟨ne_nil_of_mem_words hw, isRun_of_mem_words hw⟩

/-! ## Cutting a text into words -/

/-- What holds of every run, and of a run in front of a blank if it holds of the text behind it, holds of every
text. -/
theorem words_induction {P : List Char → Prop} (hrun : ∀ run, IsRun run → P run)
    (hcons : ∀ run c rest, IsRun run → isBlank c = true → P rest → P (run ++ c :: rest)) (cs : List Char) :
    P cs := by
  have hgrow : ∀ cs run, IsRun run → P (run ++ cs) := by
    intro cs
    induction cs with
    | nil =>
      intro run h
      rw [List.append_nil]
      exact hrun run h
    | cons c cs ih =>
      intro run h
      cases hc : isBlank c with
      | true => exact hcons run c cs h hc (ih [] isRun_nil)
      | false =>
        rw [List.append_cons]
        refine ih (run ++ [c]) fun d hd => ?_
        rcases List.mem_append.mp hd with hd | hd
        · exact h d hd
        · rw [List.mem_singleton.mp hd, hc]
  exact hgrow cs [] isRun_nil

/-- A word stands between blanks, or at an end of the text. -/
theorem exists_of_mem_words {cs w : List Char} (h : w ∈ words cs) :
    ∃ front back, cs = front ++ (w ++ back) ∧ (∀ c ∈ front.getLast?, isBlank c = true) ∧
      ∀ c ∈ back.head?, isBlank c = true := by
  induction cs using words_induction with
  | hrun run hrun =>
    obtain ⟨rfl, -⟩ := (mem_words_of_isRun hrun).mp h
    exact ⟨[], [], by simp, by simp, by simp⟩
  | hcons run c rest hrun hc ih =>
    rw [words_append_cons hc, List.mem_append] at h
    rcases h with h | h
    · obtain ⟨rfl, -⟩ := (mem_words_of_isRun hrun).mp h
      exact ⟨[], c :: rest, rfl, by simp, by simpa using hc⟩
    · obtain ⟨front, back, rfl, hfront, hback⟩ := ih h
      refine ⟨run ++ c :: front, back, by simp, ?_, hback⟩
      cases front with
      | nil => simpa using hc
      | cons d front => simpa [List.getLast?_append] using hfront

/-- Words are made of characters of the text. -/
theorem mem_of_mem_words {cs w : List Char} (h : w ∈ words cs) {c : Char} (hc : c ∈ w) : c ∈ cs := by
  obtain ⟨front, back, rfl, -⟩ := exists_of_mem_words h
  exact List.mem_append_right _ (List.mem_append_left _ hc)

/-- A run between blanks is a word. -/
theorem mem_words_of_eq {front w back : List Char} (hw : IsRun w) (hne : w ≠ [])
    (hfront : ∀ c ∈ front.getLast?, isBlank c = true) (hback : ∀ c ∈ back.head?, isBlank c = true) :
    w ∈ words (front ++ (w ++ back)) := by
  rw [words_append_of_getLast? hfront, words_append_of_head? w hback, words_of_isRun hw, if_neg hne]
  simp

/-- What a text starts with stands in front of the first blank if no blank is in it. -/
theorem exists_eq_append_of_isRun {front behind xs rest : List Char} (hfront : IsRun front)
    (hrest : ∀ c ∈ rest.head?, isBlank c = true) (h : xs ++ rest = front ++ behind) :
    ∃ more, xs = front ++ more ∧ behind = more ++ rest := by
  rcases List.append_eq_append_iff.mp h with ⟨more, rfl, rfl⟩ | hmore
  · cases more with
    | nil => exact ⟨[], by simp, by simp⟩
    | cons c more =>
      have hc := hfront c (by simp)
      rw [hrest c rfl] at hc
      cases hc
  · exact hmore

/-- A word of two texts in a row is a word of one of them, unless it grew together from both. -/
theorem exists_mem_words_append {P : List Char → Prop} {xs ys : List Char}
    (hjoin : ∀ run more, run ≠ [] → run <:+ xs → more <+: ys → P (run ++ more) → P run)
    (h : ∃ w ∈ words (xs ++ ys), P w) : (∃ w ∈ words xs, P w) ∨ ∃ w ∈ words ys, P w := by
  obtain ⟨w, hw, hP⟩ := h
  obtain ⟨front, run, rfl, hfront, hrun⟩ : ∃ front run, xs = front ++ run ∧
      (∀ c ∈ front.getLast?, isBlank c = true) ∧ IsRun run := by
    refine ⟨xs.rdropWhile fun c => !isBlank c, xs.rtakeWhile fun c => !isBlank c,
      List.rdropWhile_append_rtakeWhile.symm, fun c hc => ?_, fun c hc => by
        simpa using List.mem_rtakeWhile_imp hc⟩
    have hne := List.ne_nil_of_mem (List.mem_of_mem_getLast? hc)
    have hlast := List.rdropWhile_last_not (fun c => !isBlank c) xs hne
    rw [List.getLast?_eq_some_getLast hne] at hc
    rw [Option.some.inj hc] at hlast
    simpa using hlast
  obtain ⟨more, back, rfl, hmore, hback⟩ : ∃ more back, ys = more ++ back ∧ IsRun more ∧
      ∀ c ∈ back.head?, isBlank c = true := by
    refine ⟨ys.takeWhile fun c => !isBlank c, ys.dropWhile fun c => !isBlank c,
      List.takeWhile_append_dropWhile.symm, isRun_takeWhile ys, fun c hc => ?_⟩
    have hdrop := List.head?_dropWhile_not (fun c => !isBlank c) ys
    rw [hc] at hdrop
    simpa using hdrop
  have hboth : IsRun (run ++ more) := fun c hc => (List.mem_append.mp hc).elim (hrun c) (hmore c)
  rw [List.append_assoc, words_append_of_getLast? hfront, ← List.append_assoc, words_append_of_head? _ hback,
    List.mem_append, List.mem_append] at hw
  rw [words_append_of_getLast? hfront, words_append_of_head? _ hback]
  rcases hw with hw | hw | hw
  · exact Or.inl ⟨w, List.mem_append_left _ hw, hP⟩
  · obtain ⟨rfl, hne⟩ := (mem_words_of_isRun hboth).mp hw
    by_cases hempty : run = []
    · refine Or.inr ⟨more, List.mem_append_left _ ?_, by simpa [hempty] using hP⟩
      exact (mem_words_of_isRun hmore).mpr ⟨rfl, by simpa [hempty] using hne⟩
    · have hrunP := hjoin run more hempty (List.suffix_append _ _) (List.prefix_append _ _) hP
      exact Or.inl ⟨run, List.mem_append_right _ ((mem_words_of_isRun hrun).mpr ⟨rfl, hempty⟩), hrunP⟩
  · exact Or.inr ⟨w, List.mem_append_right _ hw, hP⟩

/-! ## Escaped quotes -/

/-- Text without backslashes in front is kept. -/
theorem unescapeQuotes_append_of_not_mem {xs : List Char} (h : '\\' ∉ xs) (ys : List Char) :
    unescapeQuotes (xs ++ ys) = xs ++ unescapeQuotes ys := by
  induction xs with
  | nil => rfl
  | cons c xs ih =>
    rw [List.mem_cons, not_or] at h
    rw [List.cons_append, unescapeQuotes_cons (Ne.symm h.1), ih h.2, List.cons_append]

/-- A text can be cut in front of any character but a quote, and the escapes of each part undone. -/
theorem unescapeQuotes_append_cons {c : Char} (hc : c ≠ '"') (xs ys : List Char) :
    unescapeQuotes (xs ++ c :: ys) = unescapeQuotes xs ++ unescapeQuotes (c :: ys) := by
  induction xs using unescapeQuotes.induct with
  | case1 xs ih => rw [List.cons_append, List.cons_append, unescapeQuotes, unescapeQuotes, ih, List.cons_append]
  | case2 d xs hne ih =>
    have hstep : ∀ cs, (d = '\\' → cs.head? ≠ some '"') → unescapeQuotes (d :: cs) = d :: unescapeQuotes cs := by
      intro cs hcs
      rw [unescapeQuotes]
      rintro rest rfl rfl
      exact hcs rfl rfl
    rw [List.cons_append, hstep _ ?_, hstep _ ?_, ih, List.cons_append]
    · rintro rfl
      cases xs with
      | nil => simp
      | cons e xs =>
        intro hhead
        exact hne xs rfl (by rw [Option.some.inj hhead])
    · rintro rfl
      cases xs with
      | nil => simpa using hc
      | cons e xs =>
        intro hhead
        exact hne xs rfl (by rw [Option.some.inj hhead])
  | case3 => rfl

/-- Undoing escapes empties no text. -/
theorem unescapeQuotes_eq_nil_iff {cs : List Char} : unescapeQuotes cs = [] ↔ cs = [] := by
  constructor
  · intro h
    unfold unescapeQuotes at h
    split at h
    · cases h
    · cases h
    · rfl
  · rintro rfl
    rfl

/-- Escaped quotes are read word by word. -/
theorem words_unescapeQuotes (cs : List Char) : words (unescapeQuotes cs) = (words cs).map unescapeQuotes := by
  have hruns : ∀ run, IsRun run → words (unescapeQuotes run) = (words run).map unescapeQuotes := by
    intro run hrun
    have hread : IsRun (unescapeQuotes run) := fun c hc => hrun c ((unescapeQuotes_sublist run).subset hc)
    rw [words_of_isRun hrun, words_of_isRun hread]
    by_cases hempty : run = []
    · rw [if_pos hempty, if_pos (unescapeQuotes_eq_nil_iff.mpr hempty), List.map_nil]
    · rw [if_neg hempty, if_neg (mt unescapeQuotes_eq_nil_iff.mp hempty), List.map_singleton]
  induction cs using words_induction with
  | hrun run hrun => exact hruns run hrun
  | hcons run c rest hrun hc ih =>
    have hquote : c ≠ '"' := by
      rintro rfl
      exact absurd hc (by decide)
    have hslash : c ≠ '\\' := by
      rintro rfl
      exact absurd hc (by decide)
    rw [unescapeQuotes_append_cons hquote, unescapeQuotes_cons hslash, words_append_cons hc,
      words_append_cons hc, List.map_append, ih, hruns run hrun]

end CommandDoc.Text
