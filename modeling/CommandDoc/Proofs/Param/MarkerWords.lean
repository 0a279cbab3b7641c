import CommandDoc.Proofs.Param.Markers
import CommandDoc.Proofs.Text.WordChar
import CommandDoc.Proofs.Text.Words

/-!
# Markers of arguments as words

A marker of an argument is a word of its text, or stands at the start of one.  So a text holds a marker exactly
if one of its words shows it, and a marker stays where it is when the text around it is cut, trimmed or
collapsed, or when other markers are taken out.

Main definitions:

- `ReadsWord`: what is read at the start of a word depends on the word alone.
- `IsPosition`, `IsRepetition` and `IsArgument`: the words that show a marker.

Main results:

- Theorem `ReadsWord.occursIn_iff`: a marker occurs in a text exactly if one of its words shows it.
- Theorem `hasArgumentMarker_iff`: so it is for the markers of arguments.
- Theorem `hasArgumentMarker_append`: a marker of two texts in a row is a marker of one of them.
- Theorem `mem_words_replaceEach_position`: other words stay when positions are taken out.
-/

namespace CommandDoc.Marker

open Text

/-! ## Patterns at the start of a word -/

section AfterBlank

variable {α : Type} {inner : List Char → Option (α × Nat)} {Shows : List Char → Prop}

/-- A reading succeeds at the start of a word exactly if the word shows it. -/
structure ReadsWord (inner : List Char → Option (α × Nat)) (Shows : List Char → Prop) : Prop where
  /-- It fails without a word. -/
  not_nil : ¬ Shows []
  /-- It succeeds up to the end of the word. -/
  isSome_iff : ∀ {run rest}, IsRun run → (∀ c ∈ rest.head?, isBlank c = true) →
    ((inner (run ++ rest)).isSome = true ↔ Shows run)

namespace ReadsWord

variable (h : ReadsWord inner Shows)

include h

/-- A run in front of a blank is read exactly if it shows the marker. -/
theorem eq_none_iff {run rest : List Char} (hrun : IsRun run) (hrest : ∀ c ∈ rest.head?, isBlank c = true) :
    inner (run ++ rest) = none ↔ ¬ Shows run := by
  rw [← h.isSome_iff hrun hrest, Bool.not_eq_true, Option.isSome_eq_false_iff, Option.isNone_iff_eq_none]

/-- Nothing is read in front of a blank. -/
theorem eq_none_of_head? {rest : List Char} (hrest : ∀ c ∈ rest.head?, isBlank c = true) :
    inner rest = none :=
  (h.eq_none_iff isRun_nil hrest).mpr h.not_nil

/-- The only word of a run that can show a marker is the run. -/
theorem forall_mem_words_run {run : List Char} (hrun : IsRun run) :
    (∀ w ∈ words run, ¬ Shows w) ↔ ¬ Shows run := by
  simp only [mem_words_of_isRun hrun]
  constructor
  · intro hwords hshows
    refine hwords run ⟨rfl, ?_⟩ hshows
    rintro rfl
    exact h.not_nil hshows
  · rintro hshows w ⟨rfl, -⟩
    exact hshows

/-- A pattern behind blanks occurs nowhere exactly if no word shows it. -/
theorem misses_iff {run cs : List Char} (hrun : IsRun run) {before : Option Char}
    (hbefore : before = none → run = []) :
    (inner (run ++ cs) = none ∧ Misses (afterBlank inner) before cs []) ↔
      ∀ w ∈ words (run ++ cs), ¬ Shows w := by
  induction cs generalizing run before with
  | nil =>
    rw [h.eq_none_iff hrun (by simp), List.append_nil, h.forall_mem_words_run hrun]
    exact and_iff_left trivial
  | cons c cs ih =>
    rw [Misses, List.append_nil]
    cases hc : isBlank c with
    | true =>
      have hblank : ∀ d ∈ (c :: cs).head?, isBlank d = true := by simpa using hc
      have hplace : afterBlank inner before (c :: cs) = none ↔ inner cs = none := by
        have hhere := h.eq_none_of_head? hblank
        simp [afterBlank, hhere, hc]
      have hrest : (inner ([] ++ cs) = none ∧ Misses (afterBlank inner) (some c) cs []) ↔
          ∀ w ∈ words ([] ++ cs), ¬ Shows w := ih isRun_nil fun _ => rfl
      rw [List.nil_append] at hrest
      rw [h.eq_none_iff hrun hblank, hplace, hrest, words_append_cons hc, List.forall_mem_append,
        h.forall_mem_words_run hrun]
    | false =>
      have hgrown : IsRun (run ++ [c]) := by
        intro d hd
        rcases List.mem_append.mp hd with hd | hd
        · exact hrun d hd
        · rw [List.mem_singleton.mp hd, hc]
      have hplace : inner (run ++ c :: cs) = none → afterBlank inner before (c :: cs) = none := by
        intro hnone
        cases before with
        | none =>
          rw [hbefore rfl, List.nil_append] at hnone
          simp [afterBlank, hnone, hc]
        | some d => simp [afterBlank, hc]
      have hrest : (inner (run ++ [c] ++ cs) = none ∧ Misses (afterBlank inner) (some c) cs []) ↔
          ∀ w ∈ words (run ++ [c] ++ cs), ¬ Shows w := ih hgrown (by simp)
      rw [← List.append_cons] at hrest
      rw [← hrest]
      constructor
      · rintro ⟨hhere, -, hrest⟩
        exact ⟨hhere, hrest⟩
      · rintro ⟨hhere, hrest⟩
        exact ⟨hhere, hplace hhere, hrest⟩

/-- A marker occurs in a text exactly if one of its words shows it. -/
theorem occursIn_iff (cs : List Char) : occursIn (afterBlank inner) cs = true ↔ ∃ w ∈ words cs, Shows w := by
  have hmisses : (inner ([] ++ cs) = none ∧ Misses (afterBlank inner) none cs []) ↔
      ∀ w ∈ words ([] ++ cs), ¬ Shows w := h.misses_iff isRun_nil fun _ => rfl
  have hstart : Misses (afterBlank inner) none cs [] → inner cs = none := by
    intro hmisses
    cases cs with
    | nil => exact h.eq_none_of_head? (by simp)
    | cons c cs =>
      have hplace := hmisses.1
      rw [List.append_nil] at hplace
      cases hinner : inner (c :: cs) with
      | none => rfl
      | some found => simp [afterBlank, hinner] at hplace
  rw [List.nil_append, and_iff_right_of_imp hstart, ← occursIn_eq_false_iff] at hmisses
  rw [← Bool.not_eq_false, hmisses]
  simp

end ReadsWord

end AfterBlank

/-! ## The words of both markers -/

/-- A word that shows a position: digits behind an at sign, up to the end of a word or a character that belongs
to none. -/
def IsPosition (w : List Char) : Prop :=
  ∃ digits tail, w = '@' :: (digits ++ tail) ∧ digits ≠ [] ∧ (∀ c ∈ digits, isDecimalDigit c = true) ∧
    ∀ c ∈ tail.head?, isDecimalDigit c = false ∧ isWordChar c = false

/-- A word that is a repetition: three dots with digits before and behind them. -/
def IsRepetition (w : List Char) : Prop :=
  ∃ least greatest, w = least ++ '.' :: '.' :: '.' :: greatest ∧
    (∀ c ∈ least, isDecimalDigit c = true) ∧ ∀ c ∈ greatest, isDecimalDigit c = true

/-- A marker of repetition holds no at sign. -/
theorem IsRepetition.not_mem_at {w : List Char} (h : IsRepetition w) : '@' ∉ w := by
  obtain ⟨least, greatest, rfl, hleast, hgreatest⟩ := h
  have hdigit : isDecimalDigit '@' = false := by decide
  simp only [List.mem_append, List.mem_cons, Char.reduceEq, false_or, not_or]
  constructor
  · intro hmem
    rw [hleast _ hmem] at hdigit
    cases hdigit
  · intro hmem
    rw [hgreatest _ hmem] at hdigit
    cases hdigit

/-- A word that shows a marker of an argument. -/
def IsArgument (w : List Char) : Prop :=
  IsPosition w ∨ IsRepetition w

/-- A position starts with an at sign. -/
theorem positionDigits_eq_none {cs : List Char} (h : cs.head? ≠ some '@') : positionDigits cs = none := by
  rw [positionDigits]
  rintro rest rfl
  exact h rfl

/-- A position is an at sign and digits, behind which the word ends or goes on without a word character. -/
theorem isPosition_cons_iff {cs : List Char} :
    IsPosition ('@' :: cs) ↔ cs.takeWhile isDecimalDigit ≠ [] ∧
      ∀ c ∈ (cs.dropWhile isDecimalDigit).head?, isWordChar c = false := by
  constructor
  · rintro ⟨digits, tail, heq, hne, hdigits, htail⟩
    have hstop : ∀ c ∈ tail.head?, isDecimalDigit c = false := fun c hc => (htail c hc).1
    rw [(List.cons.inj heq).2, takeWhile_append_of_head? hdigits hstop, dropWhile_append_of_head? hdigits hstop]
    exact ⟨hne, fun c hc => (htail c hc).2⟩
  · rintro ⟨hne, hword⟩
    refine ⟨_, _, by rw [List.takeWhile_append_dropWhile], hne, fun c hc => List.mem_takeWhile_imp hc,
      fun c hc => ⟨?_, hword c hc⟩⟩
    have hdrop := List.head?_dropWhile_not isDecimalDigit cs
    rw [hc] at hdrop
    simpa using hdrop

/-- Reading a position looks at one word. -/
theorem readsWord_positionDigits : ReadsWord positionDigits IsPosition where
  not_nil := by
    rintro ⟨_, _, hnil, -⟩
    cases hnil
  isSome_iff := by
    intro run rest hrun hrest
    have hstop : ∀ c ∈ rest.head?, isDecimalDigit c = false := fun c hc =>
      isDecimalDigit_eq_false_of_isBlank (hrest c hc)
    by_cases hat : run.head? = some '@'
    · obtain ⟨run, rfl⟩ := List.head?_eq_some_iff.mp hat
      have hword : ∀ c ∈ rest.head?, isWordChar c = false := fun c hc =>
        isWordChar_eq_false_of_isBlank (hrest c hc)
      rw [isPosition_cons_iff, List.cons_append, positionDigits, takeWhile_append_of_stop hstop,
        dropWhile_append_of_stop hstop]
      cases run.dropWhile isDecimalDigit with
      | nil =>
        cases rest with
        | nil => simp
        | cons c rest => simp [hword c rfl]
      | cons c tail => simp
    · have hnone : positionDigits (run ++ rest) = none := by
        refine positionDigits_eq_none fun hhead => ?_
        cases run with
        | nil => exact absurd (hrest '@' hhead) (by decide)
        | cons c run => exact hat hhead
      rw [hnone]
      refine ⟨fun hnone => absurd hnone Bool.false_ne_true, ?_⟩
      rintro ⟨digits, tail, rfl, -⟩
      exact absurd rfl hat

/-- A marker of repetition is three dots between digits. -/
theorem isRepetition_iff {w : List Char} :
    IsRepetition w ↔ ∃ more, w.dropWhile isDecimalDigit = ['.', '.', '.'] ++ more ∧
      ∀ c ∈ more, isDecimalDigit c = true := by
  constructor
  · rintro ⟨least, greatest, rfl, hleast, hgreatest⟩
    have hdots : ∀ c ∈ ('.' :: '.' :: '.' :: greatest).head?, isDecimalDigit c = false := by
      rintro c ⟨⟩
      decide
    exact ⟨greatest, dropWhile_append_of_head? hleast hdots, hgreatest⟩
  · rintro ⟨more, hmore, hdigits⟩
    refine ⟨w.takeWhile isDecimalDigit, more, ?_, fun c hc => List.mem_takeWhile_imp hc, hdigits⟩
    have hsplit := List.takeWhile_append_dropWhile (p := isDecimalDigit) (l := w)
    rw [hmore] at hsplit
    exact hsplit.symm

/-- Reading a repetition looks at one word. -/
theorem readsWord_repetitionBounds : ReadsWord repetitionBounds IsRepetition where
  not_nil := by
    rintro ⟨least, greatest, hnil, -⟩
    simp at hnil
  isSome_iff := by
    intro run rest hrun hrest
    have hstop : ∀ c ∈ rest.head?, isDecimalDigit c = false := fun c hc =>
      isDecimalDigit_eq_false_of_isBlank (hrest c hc)
    rw [isRepetition_iff, repetitionBounds, dropWhile_append_of_stop hstop]
    constructor
    · intro h
      split at h
      · next behind hdots =>
        have hfront : IsRun ['.', '.', '.'] := List.all_iff_forall_prop.mp (by decide)
        obtain ⟨more, hmore, rfl⟩ : ∃ more, run.dropWhile isDecimalDigit = ['.', '.', '.'] ++ more ∧
            behind = more ++ rest := exists_eq_append_of_isRun hfront hrest hdots
        refine ⟨more, hmore, List.dropWhile_eq_nil_iff.mp ?_⟩
        simp only [dropWhile_append_of_stop hstop] at h
        cases hdrop : more.dropWhile isDecimalDigit with
        | nil => rfl
        | cons c tail =>
          -- A character that ends the digits would have to be a blank, but the run has none.
          have htail : c ∈ more := (List.dropWhile_sublist isDecimalDigit).subset (hdrop ▸ List.mem_cons_self)
          have hmem : c ∈ run.dropWhile isDecimalDigit := hmore ▸ List.mem_append_right _ htail
          have hc : isBlank c = false := hrun c ((List.dropWhile_sublist isDecimalDigit).subset hmem)
          simp [hdrop, hc] at h
      · cases h
    · rintro ⟨more, hmore, hdigits⟩
      rw [hmore]
      simp only [List.cons_append, List.nil_append, dropWhile_append_of_head? hdigits hstop]
      cases rest with
      | nil => rfl
      | cons c rest => simp [hrest c rfl]

/-- A text holds a marker of an argument exactly if one of its words shows it. -/
theorem hasArgumentMarker_iff {cs : List Char} :
    hasArgumentMarker cs = true ↔ ∃ w ∈ words cs, IsArgument w := by
  rw [hasArgumentMarker, Bool.or_eq_true, position, repetition, readsWord_positionDigits.occursIn_iff,
    readsWord_repetitionBounds.occursIn_iff]
  constructor
  · rintro (⟨w, hw, hshows⟩ | ⟨w, hw, hshows⟩)
    · exact ⟨w, hw, Or.inl hshows⟩
    · exact ⟨w, hw, Or.inr hshows⟩
  · rintro ⟨w, hw, hshows | hshows⟩
    · exact Or.inl ⟨w, hw, hshows⟩
    · exact Or.inr ⟨w, hw, hshows⟩

/-! ## Texts in a row -/

/-- A character that no marker of an argument starts with or goes on with. -/
def IsForeign (c : Char) : Prop :=
  isDecimalDigit c = false ∧ c ≠ '@' ∧ c ≠ '.'

instance : DecidablePred IsForeign := fun c =>
  inferInstanceAs (Decidable (isDecimalDigit c = false ∧ c ≠ '@' ∧ c ≠ '.'))

/-- No marker holds a blank. -/
theorem isForeign_of_isBlank {c : Char} (hc : isBlank c = true) : IsForeign c := by
  refine ⟨isDecimalDigit_eq_false_of_isBlank hc, ?_, ?_⟩
  · rintro rfl
    exact absurd hc (by decide)
  · rintro rfl
    exact absurd hc (by decide)

/-- A marker does not start with a character that is foreign to markers. -/
theorem IsArgument.head?_not_foreign {c : Char} {w : List Char} (h : IsArgument (c :: w)) : ¬ IsForeign c := by
  rintro ⟨hdigit, hat, hdot⟩
  rcases h with ⟨digits, tail, heq, -⟩ | ⟨least, greatest, heq, hleast, -⟩
  · exact hat (List.cons.inj heq).1
  · cases least with
    | nil => exact hdot (List.cons.inj heq).1
    | cons d least =>
      rw [(List.cons.inj heq).1, hleast d List.mem_cons_self] at hdigit
      cases hdigit

/-- A word in front of a foreign character is a marker if it is one together with what follows. -/
theorem IsArgument.of_append {run more : List Char} (hne : run ≠ []) (hmore : ∀ c ∈ more.head?, IsForeign c)
    (h : IsArgument (run ++ more)) : IsArgument run := by
  rcases h with ⟨digits, tail, heq, hdigits, hall, htail⟩ | ⟨least, greatest, heq, hleast, hgreatest⟩
  · obtain ⟨c, run, rfl⟩ := List.exists_cons_of_ne_nil hne
    obtain ⟨rfl, -⟩ := List.cons.inj heq
    refine Or.inl ?_
    rw [isPosition_cons_iff]
    have hstop : ∀ c ∈ more.head?, isDecimalDigit c = false := fun c hc => (hmore c hc).1
    have hposition : IsPosition ('@' :: (run ++ more)) := ⟨digits, tail, heq, hdigits, hall, htail⟩
    rw [isPosition_cons_iff, takeWhile_append_of_stop hstop, dropWhile_append_of_stop hstop] at hposition
    refine ⟨hposition.1, fun c hc => hposition.2 c ?_⟩
    rw [List.head?_append, hc]
    rfl
  · cases more with
    | nil =>
      rw [List.append_nil] at heq
      exact Or.inr ⟨least, greatest, heq, hleast, hgreatest⟩
    | cons c more =>
      obtain ⟨hdigit, -, hdot⟩ := hmore c rfl
      have hmem : c ∈ least ++ '.' :: '.' :: '.' :: greatest :=
        heq ▸ List.mem_append_right run List.mem_cons_self
      simp only [List.mem_append, List.mem_cons, hdot, false_or] at hmem
      rcases hmem with hmem | hmem
      · rw [hleast c hmem] at hdigit
        cases hdigit
      · rw [hgreatest c hmem] at hdigit
        cases hdigit

/-- A marker of a text in front of a foreign character and what follows it is a marker of one of them. -/
theorem hasArgumentMarker_append {xs ys : List Char} (hys : ∀ c ∈ ys.head?, IsForeign c)
    (h : hasArgumentMarker (xs ++ ys) = true) :
    hasArgumentMarker xs = true ∨ hasArgumentMarker ys = true := by
  rw [hasArgumentMarker_iff] at h ⊢
  rw [hasArgumentMarker_iff]
  refine exists_mem_words_append (fun run more hne _ hmore hargument => ?_) h
  refine hargument.of_append hne fun c hc => hys c ?_
  obtain ⟨back, rfl⟩ := hmore
  rw [List.head?_append, hc]
  rfl

/-- No marker starts with a foreign character, so foreign characters in front of a text hold none. -/
theorem hasArgumentMarker_of_append {front cs : List Char} (hfront : ∀ c ∈ front, IsForeign c)
    (h : hasArgumentMarker (front ++ cs) = true) : hasArgumentMarker cs = true := by
  have hnot : ∀ run more, run ≠ [] → (∀ c ∈ run, c ∈ front) → ¬ IsArgument (run ++ more) := by
    intro run more hne hrun hargument
    obtain ⟨c, run, rfl⟩ := List.exists_cons_of_ne_nil hne
    exact hargument.head?_not_foreign (hfront c (hrun c List.mem_cons_self))
  rw [hasArgumentMarker_iff] at h ⊢
  refine (exists_mem_words_append (fun run more hne hrun _ hargument => ?_) h).resolve_left ?_
  · exact absurd hargument (hnot run more hne fun c hc => hrun.subset hc)
  · rintro ⟨w, hw, hargument⟩
    refine hnot w [] (ne_nil_of_mem_words hw) (fun c hc => mem_of_mem_words hw hc) ?_
    rwa [List.append_nil]

/-- A foreign character keeps the markers in front of it and behind it apart. -/
theorem hasArgumentMarker_or_of_foreign {c : Char} (hc : IsForeign c) {xs ys : List Char}
    (h : hasArgumentMarker (xs ++ c :: ys) = true) :
    hasArgumentMarker xs = true ∨ hasArgumentMarker ys = true := by
  have hhead : ∀ d ∈ (c :: ys).head?, IsForeign d := by
    rintro d ⟨⟩
    exact hc
  refine (hasArgumentMarker_append hhead h).imp_right fun hys => ?_
  rw [← List.singleton_append] at hys
  exact hasArgumentMarker_of_append (List.forall_mem_singleton.mpr hc) hys

/-- A character that is foreign to markers can be taken away from the front. -/
theorem hasArgumentMarker_of_cons {c : Char} (hc : IsForeign c) {cs : List Char}
    (h : hasArgumentMarker (c :: cs) = true) : hasArgumentMarker cs = true := by
  rw [← List.nil_append (c :: cs)] at h
  exact (hasArgumentMarker_or_of_foreign hc h).resolve_left (by decide)

/-- So it can from the end. -/
theorem hasArgumentMarker_of_concat {c : Char} (hc : IsForeign c) {cs : List Char}
    (h : hasArgumentMarker (cs ++ [c]) = true) : hasArgumentMarker cs = true :=
  (hasArgumentMarker_or_of_foreign hc h).resolve_right (by decide)

/-- A marker stands in front of a blank or behind it. -/
theorem hasArgumentMarker_append_cons {c : Char} (hc : isBlank c = true) (xs ys : List Char) :
    hasArgumentMarker (xs ++ c :: ys) = true ↔ hasArgumentMarker xs = true ∨ hasArgumentMarker ys = true := by
  simp only [hasArgumentMarker_iff, words_append_cons hc, List.mem_append, or_and_right, exists_or]

/-- Trimming the start keeps markers. -/
theorem hasArgumentMarker_trimStart (cs : List Char) :
    hasArgumentMarker (trimStart cs) = hasArgumentMarker cs := by
  rw [Bool.eq_iff_iff, hasArgumentMarker_iff, hasArgumentMarker_iff, words_trimStart]

/-- So does trimming both ends. -/
theorem hasArgumentMarker_trim (cs : List Char) : hasArgumentMarker (trim cs) = hasArgumentMarker cs := by
  rw [Bool.eq_iff_iff, hasArgumentMarker_iff, hasArgumentMarker_iff, words_trim]

/-- So does collapsing blanks. -/
theorem hasArgumentMarker_collapse (cs : List Char) :
    hasArgumentMarker (collapse cs) = hasArgumentMarker cs := by
  rw [Bool.eq_iff_iff, hasArgumentMarker_iff, hasArgumentMarker_iff, words_collapse]

/-! ## Quotes -/

/-- A marker is still one when escapes are undone. -/
theorem IsArgument.unescapeQuotes {w : List Char} (h : IsArgument w) : IsArgument (unescapeQuotes w) := by
  have hslash : ∀ digits : List Char, (∀ c ∈ digits, isDecimalDigit c = true) → '\\' ∉ digits := by
    intro digits hdigits hmem
    exact absurd (hdigits _ hmem) (by decide)
  rcases h with ⟨digits, tail, rfl, hne, hdigits, htail⟩ | ⟨least, greatest, rfl, hleast, hgreatest⟩
  · refine Or.inl ⟨digits, Text.unescapeQuotes tail, ?_, hne, hdigits, fun c hc => ?_⟩
    · rw [unescapeQuotes_cons (by decide), unescapeQuotes_append_of_not_mem (hslash digits hdigits)]
    · unfold Text.unescapeQuotes at hc
      split at hc
      · rw [← Option.some.inj hc]
        decide
      · exact htail c hc
      · cases hc
  · have hfree : '\\' ∉ least ++ '.' :: '.' :: '.' :: greatest := by
      simp [hslash least hleast, hslash greatest hgreatest]
    rw [unescapeQuotes_eq_self hfree]
    exact Or.inr ⟨least, greatest, rfl, hleast, hgreatest⟩

/-- So a text keeps its marker. -/
theorem hasArgumentMarker_unescapeQuotes {cs : List Char} (h : hasArgumentMarker cs = true) :
    hasArgumentMarker (unescapeQuotes cs) = true := by
  rw [hasArgumentMarker_iff] at h ⊢
  obtain ⟨w, hw, hargument⟩ := h
  rw [words_unescapeQuotes]
  exact ⟨unescapeQuotes w, List.mem_map_of_mem hw, hargument.unescapeQuotes⟩

/-- Taking quotes away leaves the markers of a value. -/
theorem hasArgumentMarker_unquote {cs : List Char} (h : hasArgumentMarker cs = true) :
    hasArgumentMarker (unquote cs) = true := by
  rw [← hasArgumentMarker_trim] at h
  rw [unquote]
  split
  · next inside hinside =>
    rw [quotedInside?_eq_some hinside] at h
    have hinside := hasArgumentMarker_of_concat (by decide) (hasArgumentMarker_of_cons (by decide) h)
    exact hasArgumentMarker_unescapeQuotes hinside
  · exact h

/-! ## Taking positions out -/

/-- A position is read alike in front of a blank and at the end of a text. -/
theorem positionDigits_append_blank {c : Char} (hc : isBlank c = true) (cs rest : List Char) :
    positionDigits (cs ++ c :: rest) = positionDigits cs := by
  have hstop : ∀ d ∈ (c :: rest).head?, isDecimalDigit d = false := by
    rintro d ⟨⟩
    exact isDecimalDigit_eq_false_of_isBlank hc
  have hword : isWordChar c = false := isWordChar_eq_false_of_isBlank hc
  by_cases hat : cs.head? = some '@'
  · obtain ⟨cs, rfl⟩ := List.head?_eq_some_iff.mp hat
    rw [List.cons_append, positionDigits, positionDigits, takeWhile_append_of_stop hstop,
      dropWhile_append_of_stop hstop]
    cases cs.dropWhile isDecimalDigit with
    | nil => simp [hword]
    | cons d tail => rfl
  · rw [positionDigits_eq_none hat, positionDigits_eq_none]
    cases cs with
    | nil =>
      rintro ⟨⟩
      exact absurd hc (by decide)
    | cons d cs => exact hat

/-- A position is no longer than the text it is read from. -/
theorem length_le_of_positionDigits {cs digits : List Char} {length : Nat}
    (h : positionDigits cs = some (digits, length)) : length ≤ cs.length := by
  by_cases hat : cs.head? = some '@'
  · obtain ⟨cs, rfl⟩ := List.head?_eq_some_iff.mp hat
    obtain ⟨-, heq⟩ := Option.ite_none_right_eq_some.mp h
    cases heq
    simpa using (List.takeWhile_sublist isDecimalDigit (l := cs)).length_le
  · rw [positionDigits_eq_none hat] at h
    cases h

/-- Nor is it with the blank in front of it. -/
theorem length_le_of_position {before : Option Char} {cs digits : List Char} {length : Nat}
    (h : position before cs = some (digits, length)) : length ≤ cs.length := by
  unfold position afterBlank at h
  split at h
  · next found hfound =>
    cases h
    split at hfound
    · exact length_le_of_positionDigits hfound
    · cases hfound
  · split at h
    · next c rest _ =>
      split at h
      · obtain ⟨⟨found, more⟩, hfound, heq⟩ := Option.map_eq_some_iff.mp h
        cases heq
        simpa using length_le_of_positionDigits hfound
      · cases h
    · cases h

/-- A blank that no position follows is kept, and the text in front of it is read as if nothing followed. -/
theorem segmentsFrom_position_append {c : Char} (hc : isBlank c = true) {rest : List Char}
    (hrest : rest.head? ≠ some '@') {cs : List Char} {taken : Nat} (htaken : taken ≤ cs.length)
    (before : Option Char) :
    segmentsFrom position taken before (cs ++ c :: rest)
      = segmentsFrom position taken before cs ++ .literal c :: segmentsFrom position 0 (some c) rest := by
  induction cs generalizing taken before with
  | nil =>
    have hhere : positionDigits (c :: rest) = none := by
      refine positionDigits_eq_none ?_
      rintro ⟨⟩
      exact absurd hc (by decide)
    have hplace : position before (c :: rest) = none := by
      simp [position, afterBlank, hhere, positionDigits_eq_none hrest]
    have hread : segmentsFrom position 0 before (c :: rest)
        = .literal c :: segmentsFrom position 0 (some c) rest := by
      rw [segmentsFrom, hplace]
    rw [Nat.le_zero.mp htaken, List.nil_append, hread]
    rfl
  | cons d cs ih =>
    cases taken with
    | succ taken =>
      rw [List.cons_append, segmentsFrom, segmentsFrom]
      exact ih (Nat.le_of_succ_le_succ htaken) _
    | zero =>
      have hplace : position before (d :: (cs ++ c :: rest)) = position before (d :: cs) := by
        have hhere := positionDigits_append_blank hc (d :: cs) rest
        rw [List.cons_append] at hhere
        simp only [position, afterBlank, hhere, positionDigits_append_blank hc cs rest]
      rw [List.cons_append, segmentsFrom, segmentsFrom, hplace]
      cases hfound : position before (d :: cs) with
      | none => exact congrArg (_ :: ·) (ih (Nat.zero_le _) _)
      | some found =>
        have hlength := length_le_of_position hfound
        rw [List.length_cons] at hlength
        exact congrArg (_ :: ·) (ih (by omega) _)

/-- A word without an at sign stays a word when positions are taken out. -/
theorem mem_words_replaceEach_position {w cs : List Char} (hw : w ∈ words cs) (hat : '@' ∉ w) :
    w ∈ words (replaceEach position (fun _ => [' ']) cs) := by
  obtain ⟨front, back, rfl, hfront, hback⟩ := exists_of_mem_words hw
  have hne : w ≠ [] := ne_nil_of_mem_words hw
  have hmisses : ∀ before, Misses position before w back := by
    intro before
    refine misses_of_forall_suffix positionDigits ?_ fun zs hzs => positionDigits_eq_none fun hhead => ?_
    · intro before c rest hhere hrest
      simp [position, afterBlank, hhere, hrest]
    · cases zs with
      | nil => exact absurd (hback '@' hhead) (by decide)
      | cons c zs =>
        rw [List.cons_append, List.head?_cons, Option.some_inj] at hhead
        exact hat (hzs.subset (hhead ▸ List.mem_cons_self))
  -- Behind the word the reading goes on at a blank, which is kept or becomes a space.
  have hread : ∀ before, ∃ more, segmentsFrom position 0 before (w ++ back) = w.map .literal ++ more ∧
      ∀ f : Segment (List Char) → List Char, (∀ c, f (.literal c) = [c]) → (∀ found, f (.hit found) = [' ']) →
        ∀ c ∈ (more.flatMap f).head?, isBlank c = true := by
    intro before
    refine ⟨_, segmentsFrom_append_of_misses (hmisses before), fun f hliteral hhit => ?_⟩
    cases back with
    | nil => simp [segmentsFrom]
    | cons c back =>
      rw [segmentsFrom]
      cases position _ (c :: back) with
      | none => simpa [hliteral] using hback
      | some found =>
        have hspace : isBlank ' ' = true := by decide
        simpa [hhit] using hspace
  have hrun : IsRun w := isRun_of_mem_words hw
  cases front using List.reverseRecOn with
  | nil =>
    obtain ⟨more, hmore, hblank⟩ := hread none
    rw [List.nil_append, replaceEach, segments, hmore, List.flatMap_append, flatMap_literals fun _ => rfl,
      ← List.nil_append (w ++ _)]
    exact mem_words_of_eq hrun hne (by simp) (hblank _ (fun _ => rfl) fun _ => rfl)
  | append_singleton front c _ =>
    obtain ⟨more, hmore, hblank⟩ := hread (some c)
    have hc : isBlank c = true := hfront c (by simp)
    have hhead : (w ++ back).head? ≠ some '@' := by
      obtain ⟨d, w, rfl⟩ := List.exists_cons_of_ne_nil hne
      rintro ⟨⟩
      exact hat List.mem_cons_self
    rw [replaceEach, segments, List.append_assoc, List.singleton_append,
      segmentsFrom_position_append hc hhead (Nat.zero_le _), hmore, List.flatMap_append, List.flatMap_cons,
      List.flatMap_append, flatMap_literals fun _ => rfl, ← List.append_assoc]
    exact mem_words_of_eq hrun hne (by simpa using hc) (hblank _ (fun _ => rfl) fun _ => rfl)

end CommandDoc.Marker
