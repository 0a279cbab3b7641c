import Mathlib.Data.List.Basic
import CommandDoc.Text.Occurrence

/-!
# Laws of reading a text for a pattern

A part of a text in which the pattern occurs nowhere is read character by character, and an occurrence is read
in one step.  Both laws leave the reading at the same place of the text, so they chain.

Main definitions:

- `Misses`: a pattern occurs nowhere in a part of a text.

Main results:

- Theorem `segmentsFrom_append_of_misses`: such a part is kept.
- Theorem `segmentsFrom_append_of_hit`: an occurrence is read in one step.
- Theorem `segments_of_hit`: how a text with a single occurrence is read.
- Theorem `occursIn_eq_false_iff`: a pattern that is not found occurs nowhere.
- Theorem `forall_mem_allFound`: what holds at every place holds of everything found.
-/

namespace CommandDoc.Text

/-- The last character of a text, or else the one in front of it. -/
theorem getLast?_or_some (c : Char) (cs : List Char) (before : Option Char) :
    cs.getLast?.or (some c) = (c :: cs).getLast?.or before := by
  rw [List.getLast?_cons]
  cases cs.getLast? <;> rfl

section Reading

variable {α : Type} {pattern : Pattern α} {before : Option Char}

/-! ## Parts of a text -/

/-- A pattern occurs at no place of `xs`, if `before` stands in front of it and `ys` behind. -/
def Misses (pattern : Pattern α) : Option Char → List Char → List Char → Prop
  | _, [], _ => True
  | before, c :: xs, ys => pattern before (c :: (xs ++ ys)) = none ∧ Misses pattern (some c) xs ys

/-- A pattern that needs `inner` to succeed, at a place or behind its first character, occurs nowhere if
`inner` fails from each place on. -/
theorem misses_of_forall_suffix {β : Type} (inner : List Char → Option β)
    (hpattern : ∀ before c rest, inner (c :: rest) = none → inner rest = none →
      pattern before (c :: rest) = none)
    {xs ys : List Char} (h : ∀ zs, zs <:+ xs → inner (zs ++ ys) = none) : Misses pattern before xs ys := by
  induction xs generalizing before with
  | nil => trivial
  | cons c xs ih =>
    have hrest : ∀ zs, zs <:+ xs → inner (zs ++ ys) = none :=
      fun zs hzs => h zs (hzs.trans (List.suffix_cons c xs))
    exact ⟨hpattern before c _ (h _ (List.suffix_refl _)) (hrest _ (List.suffix_refl _)), ih hrest⟩

/-- Where a pattern does not occur the text is kept. -/
theorem segmentsFrom_append_of_misses {xs ys : List Char} (h : Misses pattern before xs ys) :
    segmentsFrom pattern 0 before (xs ++ ys)
      = xs.map .literal ++ segmentsFrom pattern 0 (xs.getLast?.or before) ys := by
  induction xs generalizing before with
  | nil => rfl
  | cons c xs ih =>
    rw [List.cons_append, segmentsFrom, h.1, List.map_cons, List.cons_append, ← getLast?_or_some]
    exact congrArg (_ :: ·) (ih h.2)

/-- The rest of an occurrence is passed over. -/
theorem segmentsFrom_length_append (xs ys : List Char) :
    segmentsFrom pattern xs.length before (xs ++ ys)
      = segmentsFrom pattern 0 (xs.getLast?.or before) ys := by
  induction xs generalizing before with
  | nil => rfl
  | cons c xs ih => rw [List.length_cons, List.cons_append, segmentsFrom, ih, getLast?_or_some]

/-- An occurrence is read in one step. -/
theorem segmentsFrom_append_of_hit (xs : List Char) {ys : List Char} {found : α} (hne : xs ≠ [])
    (h : pattern before (xs ++ ys) = some (found, xs.length)) :
    segmentsFrom pattern 0 before (xs ++ ys) = .hit found :: segmentsFrom pattern 0 xs.getLast? ys := by
  obtain ⟨c, xs, rfl⟩ := List.exists_cons_of_ne_nil hne
  rw [List.cons_append] at h ⊢
  rw [segmentsFrom, h, ← Option.or_none (o := (c :: xs).getLast?), ← getLast?_or_some]
  exact congrArg (_ :: ·) (segmentsFrom_length_append xs ys)

/-! ## Whole texts -/

theorem allFound_literals (xs : List Char) :
    (xs.map Segment.literal).filterMap (Segment.found? (α := α)) = [] := by
  rw [List.filterMap_map, List.filterMap_eq_nil_iff]
  exact fun _ _ => rfl

theorem flatMap_literals {f : Segment α → List Char} (hf : ∀ c, f (.literal c) = [c]) (xs : List Char) :
    (xs.map Segment.literal).flatMap f = xs := by
  rw [List.flatMap_map]
  simp only [hf]
  exact List.flatMap_singleton' xs

theorem segments_of_misses {xs : List Char} (h : Misses pattern none xs []) :
    segments pattern xs = xs.map .literal := by
  have hread := segmentsFrom_append_of_misses h
  rw [List.append_nil] at hread
  rw [segments, hread, segmentsFrom, List.append_nil]

/-- A text with a single occurrence. -/
theorem segments_of_hit (front mid : List Char) {back : List Char} {found : α} (hne : mid ≠ [])
    (hfront : Misses pattern none front (mid ++ back))
    (hmid : pattern front.getLast? (mid ++ back) = some (found, mid.length))
    (hback : Misses pattern mid.getLast? back []) :
    segments pattern (front ++ (mid ++ back))
      = front.map .literal ++ .hit found :: back.map .literal := by
  have hrest := segmentsFrom_append_of_misses hback
  rw [List.append_nil] at hrest
  rw [segments, segmentsFrom_append_of_misses hfront, Option.or_none, segmentsFrom_append_of_hit mid hne hmid,
    hrest, segmentsFrom, List.append_nil]

theorem firstFound?_of_misses {xs : List Char} (h : Misses pattern none xs []) :
    firstFound? pattern xs = none := by
  rw [firstFound?, allFound, segments_of_misses h, allFound_literals]
  rfl

/-- A text in which nothing is found is one in which the pattern occurs nowhere. -/
theorem misses_of_found_eq_nil {xs : List Char}
    (h : (segmentsFrom pattern 0 before xs).filterMap Segment.found? = []) : Misses pattern before xs [] := by
  induction xs generalizing before with
  | nil => trivial
  | cons c xs ih =>
    rw [segmentsFrom] at h
    rw [Misses, List.append_nil]
    cases hplace : pattern before (c :: xs) with
    | none =>
      rw [hplace] at h
      exact ⟨rfl, ih h⟩
    | some found =>
      rw [hplace] at h
      simp [Segment.found?] at h

theorem occursIn_eq_false_iff {xs : List Char} : occursIn pattern xs = false ↔ Misses pattern none xs [] := by
  rw [occursIn, Option.isSome_eq_false_iff, Option.isNone_iff_eq_none]
  refine ⟨fun h => ?_, firstFound?_of_misses⟩
  rw [firstFound?, List.head?_eq_none_iff] at h
  exact misses_of_found_eq_nil h

theorem replaceEach_of_misses {replacement : α → List Char} {xs : List Char}
    (h : Misses pattern none xs []) : replaceEach pattern replacement xs = xs := by
  rw [replaceEach, segments_of_misses h]
  exact flatMap_literals (fun _ => rfl) xs

theorem firstFound?_of_hit {front mid back : List Char} {found : α}
    (h : segments pattern (front ++ (mid ++ back))
      = front.map .literal ++ .hit found :: back.map .literal) :
    firstFound? pattern (front ++ (mid ++ back)) = some found := by
  rw [firstFound?, allFound, h, List.filterMap_append, allFound_literals]
  rfl

theorem replaceEach_of_hit {replacement : α → List Char} {front mid back : List Char} {found : α}
    (h : segments pattern (front ++ (mid ++ back))
      = front.map .literal ++ .hit found :: back.map .literal) :
    replaceEach pattern replacement (front ++ (mid ++ back)) = front ++ (replacement found ++ back) := by
  rw [replaceEach, h, List.flatMap_append, List.flatMap_cons, flatMap_literals (fun _ => rfl),
    flatMap_literals (fun _ => rfl)]

/-! ## Everything found -/

/-- What holds of everything that a pattern finds at a place holds of everything found in a text. -/
theorem forall_mem_allFound {P : α → Prop}
    (h : ∀ before cs found length, pattern before cs = some (found, length) → P found) (cs : List Char) :
    ∀ found ∈ allFound pattern cs, P found := by
  have hsegments : ∀ cs taken before found, .hit found ∈ segmentsFrom pattern taken before cs → P found := by
    intro cs
    induction cs with
    | nil => simp [segmentsFrom]
    | cons c cs ih =>
      intro taken before found hmem
      cases taken with
      | succ taken => exact ih taken _ found hmem
      | zero =>
        rw [segmentsFrom] at hmem
        split at hmem
        · next first length hfirst =>
          rcases List.mem_cons.mp hmem with heq | hmem
          · cases heq
            exact h _ _ _ _ hfirst
          · exact ih _ _ found hmem
        · rcases List.mem_cons.mp hmem with heq | hmem
          · cases heq
          · exact ih _ _ found hmem
  intro found hfound
  rcases List.mem_filterMap.mp hfound with ⟨segment, hmem, hsegment⟩
  cases segment with
  | literal c => cases hsegment
  | hit other =>
    cases hsegment
    exact hsegments cs 0 none _ hmem

end Reading

end CommandDoc.Text
