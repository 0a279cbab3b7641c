import CommandDoc.Comment.Lines
import CommandDoc.Proofs.Text.Blank

/-!
# Comments without markers

Lines that have no markers stay as they are when a comment is normalized, up to blanks at their ends.

Main definitions:

- `IsOneLine`: a text without line ends.
- `IsPlainLine`: a line that is not touched by the removal of markers.

Main results:

- Theorem `readableLines_intercalate`: the lines read from a comment that is made of plain lines.
-/

namespace CommandDoc.Comment

open Text

/-! ## Line ends -/

/-- Text without a carriage return has its line ends unified. -/
theorem unifyBreaks_eq_self {cs : List Char} (h : '\r' ∉ cs) : unifyBreaks cs = cs := by
  induction cs with
  | nil => rfl
  | cons c cs ih =>
    simp only [List.mem_cons, not_or] at h
    obtain ⟨hc, hcs⟩ := h
    rw [unifyBreaks.eq_3, ih hcs]
    · rintro _ rfl
      exact absurd rfl hc
    · rintro rfl
      exact absurd rfl hc

/-- Only the last line is looked at. -/
theorem dropEmptyLast_concat (lines : List (List Char)) (line : List Char) :
    dropEmptyLast (lines ++ [line]) = if line = [] then lines else lines ++ [line] := by
  induction lines with
  | nil =>
    cases line with
    | nil => rfl
    | cons c cs => rfl
  | cons first lines ih =>
    have hne : lines ++ [line] ≠ [] := by simp
    have hstep : dropEmptyLast (first :: (lines ++ [line])) = first :: dropEmptyLast (lines ++ [line]) := by
      cases hlines : lines ++ [line] with
      | nil => exact absurd hlines hne
      | cons second rest => cases first <;> rfl
    rw [List.cons_append, hstep, ih]
    split <;> rfl

theorem mem_of_mem_dropEmptyLast {line : List Char} {lines : List (List Char)}
    (h : line ∈ dropEmptyLast lines) : line ∈ lines := by
  induction lines using List.reverseRecOn with
  | nil => exact h
  | append_singleton lines last _ =>
    rw [dropEmptyLast_concat] at h
    split at h
    · exact List.mem_append_left _ h
    · exact h

theorem mem_dropEmptyLast {line : List Char} {lines : List (List Char)} (h : line ∈ lines)
    (hne : line ≠ []) : line ∈ dropEmptyLast lines := by
  induction lines using List.reverseRecOn with
  | nil => exact h
  | append_singleton lines last _ =>
    rw [dropEmptyLast_concat]
    split
    · next hlast =>
      rcases List.mem_append.mp h with h | h
      · exact h
      · exact absurd ((List.mem_singleton.mp h).trans hlast) hne
    · exact h

/-- Lines joined by line feeds are read back, but for an empty one at the end. -/
theorem textLines_intercalate {lines : List (List Char)} (h : ∀ line ∈ lines, '\n' ∉ line) :
    textLines (List.intercalate ['\n'] lines) = dropEmptyLast lines := by
  unfold textLines
  by_cases hlines : lines = []
  · rw [hlines]
    rfl
  · rw [fields_intercalate h hlines]

/-! ## Plain lines -/

/-- A text on one line. -/
def IsOneLine (cs : List Char) : Prop :=
  '\n' ∉ cs ∧ '\r' ∉ cs

instance (cs : List Char) : Decidable (IsOneLine cs) :=
  inferInstanceAs (Decidable (_ ∧ _))

theorem isOneLine_cons {c : Char} {cs : List Char} :
    IsOneLine (c :: cs) ↔ (c ≠ '\n' ∧ c ≠ '\r') ∧ IsOneLine cs := by
  simp only [IsOneLine, List.mem_cons, not_or, ne_comm (a := c), ne_eq]
  tauto

theorem isOneLine_append {xs ys : List Char} : IsOneLine (xs ++ ys) ↔ IsOneLine xs ∧ IsOneLine ys := by
  simp only [IsOneLine, List.mem_append, not_or]
  tauto

theorem isOneLine_intercalate {gap : List Char} {xs : List (List Char)} (hgap : IsOneLine gap)
    (hxs : ∀ x ∈ xs, IsOneLine x) : IsOneLine (List.intercalate gap xs) :=
  ⟨not_mem_intercalate hgap.1 fun x hx => (hxs x hx).1, not_mem_intercalate hgap.2 fun x hx => (hxs x hx).2⟩

theorem isOneLine_of_forall_not_isBlank {cs : List Char} (h : ∀ c ∈ cs, isBlank c = false) :
    IsOneLine cs :=
  ⟨fun hmem => absurd (h _ hmem) (by decide), fun hmem => absurd (h _ hmem) (by decide)⟩

/-- A line that stands for itself: it holds no line end and is no part of a block comment. -/
structure IsPlainLine (line : List Char) : Prop where
  /-- It holds no line end. -/
  oneLine : IsOneLine line
  /-- It is not the start or the end of a block comment. -/
  no_fence : isFence line = false
  /-- It is not a block comment. -/
  no_block : blockInside? line = none

instance (line : List Char) : Decidable (IsPlainLine line) :=
  decidable_of_iff (IsOneLine line ∧ isFence line = false ∧ blockInside? line = none)
    ⟨fun ⟨oneLine, no_fence, no_block⟩ => ⟨oneLine, no_fence, no_block⟩,
      fun plain => ⟨plain.oneLine, plain.no_fence, plain.no_block⟩⟩

/-- A line with a character besides blanks, slashes and stars is no fence. -/
theorem isFence_eq_false_of_mem {c : Char} {line : List Char} (hc : c ∈ line) (hblank : isBlank c = false)
    (hslash : c ≠ '/') (hstar : c ≠ '*') : isFence line = false := by
  have hstars : ∀ cs, c ∈ '/' :: cs → isStars cs = false := by
    intro cs hmem
    have hcs := (List.mem_cons.mp hmem).resolve_left hslash
    rw [isStars, Bool.and_eq_false_iff]
    refine Or.inr (List.all_eq_false.mpr ⟨c, hcs, ?_⟩)
    simpa using hstar
  have htrim := mem_trim hc hblank
  unfold isFence
  split
  · next rest heq =>
    rw [heq] at htrim
    exact hstars rest htrim
  · split
    · next back heq =>
      rw [← List.mem_reverse, heq] at htrim
      exact hstars back htrim
    · rfl

/-- A line that does not start with a slash is no block comment. -/
theorem blockInside?_eq_none {line : List Char} (h : (trimStart line).head? ≠ some '/') :
    blockInside? line = none := by
  unfold blockInside?
  split
  · next more heq => exact absurd (by rw [heq]; rfl) h
  · rfl

/-- A line whose first character besides blanks is no slash and no star is plain if it holds no line end. -/
theorem IsPlainLine.of_head {line : List Char} {c : Char} (hhead : (trimStart line).head? = some c)
    (hslash : c ≠ '/') (hstar : c ≠ '*') (hline : IsOneLine line) : IsPlainLine line where
  oneLine := hline
  no_fence := by
    obtain ⟨rest, hstart⟩ := List.head?_eq_some_iff.mp hhead
    have hmem : c ∈ line := (List.dropWhile_suffix isBlank).subset (by
      rw [← trimStart, hstart]
      exact List.mem_cons_self)
    exact isFence_eq_false_of_mem hmem (isBlank_eq_false_of_trimStart_eq hstart) hslash hstar
  no_block := by
    apply blockInside?_eq_none
    rw [hhead]
    exact fun h => hslash (Option.some.inj h)

theorem isPlainLine_nil : IsPlainLine [] where
  oneLine := by decide
  no_fence := rfl
  no_block := rfl

/-! ## Normalization -/

/-- Plain lines stay when block comments are taken off. -/
theorem unfencedLines_intercalate {lines : List (List Char)} (h : ∀ line ∈ lines, IsPlainLine line) :
    unfencedLines (List.intercalate ['\n'] lines) = dropEmptyLast lines := by
  have hreturn : '\r' ∉ List.intercalate ['\n'] lines :=
    not_mem_intercalate (by decide) fun line hline => (h line hline).oneLine.2
  have hplain : ∀ line ∈ dropEmptyLast lines, IsPlainLine line :=
    fun line hline => h line (mem_of_mem_dropEmptyLast hline)
  rw [unfencedLines, unifyBreaks_eq_self hreturn, textLines_intercalate fun line hline => (h line hline).oneLine.1]
  have hfilter : (dropEmptyLast lines).filter (fun line => !isFence line) = dropEmptyLast lines := by
    rw [List.filter_eq_self]
    intro line hline
    rw [(hplain line hline).no_fence]
    rfl
  have hunwrap : (dropEmptyLast lines).map unwrapBlock = dropEmptyLast lines := by
    rw [List.map_congr_left (g := id), List.map_id]
    intro line hline
    rw [unwrapBlock, (hplain line hline).no_block]
    rfl
  rw [hfilter, hunwrap]

/-- The lines read from a comment of plain lines, of which one has no line marker. -/
theorem readableLines_intercalate {lines : List (List Char)} (h : ∀ line ∈ lines, IsPlainLine line)
    (hunmarked : ∃ line ∈ lines, isMarked line = false) :
    readableLines (List.intercalate ['\n'] lines) = dropEmptyLast ((dropEmptyLast lines).map trimEnd) := by
  obtain ⟨unmarked, hmem, hmarker⟩ := hunmarked
  have hleft : unmarked ∈ dropEmptyLast lines := by
    apply mem_dropEmptyLast hmem
    rintro rfl
    exact absurd hmarker (by decide)
  have hall : (dropEmptyLast lines).all isMarked = false :=
    List.all_eq_false.mpr ⟨unmarked, hleft, by rw [hmarker]; exact Bool.false_ne_true⟩
  have hfeed : ∀ line ∈ (dropEmptyLast lines).map trimEnd, '\n' ∉ line := by
    intro line hline hin
    obtain ⟨whole, hwhole, rfl⟩ := List.mem_map.mp hline
    exact (h whole (mem_of_mem_dropEmptyLast hwhole)).oneLine.1 ((trimEnd_isPrefix whole).subset hin)
  rw [readableLines, normalize, normalizedLines, unfencedLines_intercalate h, hall]
  exact textLines_intercalate hfeed

end CommandDoc.Comment
