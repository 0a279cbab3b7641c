import CommandDoc.Proofs.Param.AttributeBlock
import CommandDoc.Proofs.Param.Description
import CommandDoc.Proofs.Text.Groups

/-!
# Blocks in front of a text and behind it

A block next to some words is found exactly if its inside is a group.  In front of the words the group is read
from its opening parenthesis, and behind them from its closing one, so the two ends differ where the two
directions take a quote behind a backslash differently.

Main results:

- Theorem `AttributeBlock.ofText?_leading_iff`: the block in front of some words.
- Theorem `AttributeBlock.ofText?_trailing_iff`: the block behind them.
- Theorem `AttributeBlock.ofText?_ends`: the two ends compared.
-/

namespace CommandDoc

open Text

/-! ## Single occurrences -/

/-- The last occurrence of a character splits a text in one way. -/
theorem Text.append_cons_eq_of_not_mem {c : Char} {xs ys us vs : List Char} (hys : c ∉ ys) (hvs : c ∉ vs)
    (h : xs ++ c :: ys = us ++ c :: vs) : xs = us ∧ ys = vs := by
  refine append_cons_eq_of_count_eq ?_ h
  rw [List.count_eq_zero_of_not_mem hys, List.count_eq_zero_of_not_mem hvs]

/-- So does the first one. -/
theorem Text.append_cons_eq_of_not_mem_front {c : Char} {xs ys us vs : List Char} (hxs : c ∉ xs)
    (hus : c ∉ us) (h : xs ++ c :: ys = us ++ c :: vs) : xs = us ∧ ys = vs := by
  have hback : ys.reverse ++ c :: xs.reverse = vs.reverse ++ c :: us.reverse := by
    simpa using congrArg List.reverse h
  have hsplit := append_cons_eq_of_not_mem (by simpa using hxs) (by simpa using hus) hback
  simpa [and_comm] using hsplit

namespace AttributeBlock

variable {ws : List (List Char)}

theorem isOutside_of_isProse (hws : ∀ w ∈ ws, IsProse w) : IsOutside ws := by
  intro w hw
  refine ⟨(hws w hw).1, fun c hc => ⟨(hws w hw).forall_isBlank c hc, fun hopen => ?_⟩⟩
  have halpha := (hws w hw).2 c hc
  rw [hopen] at halpha
  exact absurd halpha (by decide)

theorem trim_parenthesize_append (hne : ws ≠ []) (hws : ∀ w ∈ ws, IsProse w) (inner : List Char) :
    trim (parenthesize inner ++ ' ' :: unwords ws) = parenthesize inner ++ ' ' :: unwords ws := by
  have hword : unwords ([parenthesize inner] ++ ws) = parenthesize inner ++ ' ' :: unwords ws := by
    rw [unwords_append (List.cons_ne_nil _ _) hne, unwords_singleton]
  rw [← hword]
  refine trim_intercalate (fun w hw => ?_) fun w hw => ?_
  · rcases List.mem_cons.mp hw with rfl | hw
    · exact List.cons_ne_nil _ _
    · exact (hws w hw).1
  · rcases List.mem_cons.mp hw with rfl | hw
    · exact trim_parenthesize inner
    · exact trim_of_forall_not_isBlank (hws w hw).forall_isBlank

/-- The block in front of some words is found exactly if its inside is a group. -/
theorem ofText?_leading_iff (hne : ws ≠ []) (hws : ∀ w ∈ ws, IsProse w) (inner : List Char) :
    ofText? (parenthesize inner ++ ' ' :: unwords ws) = some ⟨trim inner, unwords ws⟩ ↔
      IsGroup .inside inner := by
  have hclosing : ')' ∉ unwords ws := not_mem_unwords_of_isProse hws (by decide) (by decide)
  have hcollapse : collapse (' ' :: unwords ws) = unwords ws := collapse_replicate_append_unwords hws 1
  have htrailing : takeGroupBack? (parenthesize inner ++ ' ' :: unwords ws) = none := by
    refine takeGroupBack?_eq_none fun hlast => ?_
    rw [List.getLast?_append_of_ne_nil _ (List.cons_ne_nil _ _)] at hlast
    exact absurd (List.mem_of_mem_getLast? hlast) (by simpa using hclosing)
  rw [ofText?, trim_parenthesize_append hne hws, trailing?, htrailing, Option.map_none, Option.or_none,
    leading?, parenthesize_append, Option.map_eq_some_iff, ← takeGroup?_eq_some_iff]
  constructor
  · rintro ⟨⟨found, rest⟩, hfound, hblock⟩
    rw [mk.injEq] at hblock
    have hrest : ')' ∉ rest := by
      intro hmem
      apply hclosing
      rw [← hblock.2]
      exact mem_collapse hmem (by decide)
    have hcut := takeGroup?_eq_append hfound
    rw [List.cons.injEq] at hcut
    rcases append_cons_eq_of_not_mem (by simpa using hclosing) hrest hcut.2 with ⟨hinner, htext⟩
    rw [hfound, ← hinner, ← htext]
  · intro hfound
    refine ⟨_, hfound, ?_⟩
    dsimp only
    rw [hcollapse]

/-- The block behind some words is found exactly if its inside is a group read backwards. -/
theorem ofText?_trailing_iff (hne : ws ≠ []) (hws : ∀ w ∈ ws, IsProse w) (inner : List Char) :
    ofText? (unwords ws ++ ' ' :: parenthesize inner) = some ⟨trim inner, unwords ws⟩ ↔
      IsGroup .anywhere inner := by
  have hword : unwords ws ++ ' ' :: parenthesize inner = unwords (ws ++ [parenthesize inner]) := by
    rw [unwords_append hne (List.cons_ne_nil _ _), unwords_singleton]
  have hleading : takeGroup? (unwords (ws ++ [parenthesize inner])) = none := by
    cases ws with
    | nil => exact absurd rfl hne
    | cons w ws => exact (isOutside_of_isProse hws).takeGroup?_eq_none _
  have hcollapse : collapse (unwords ws ++ [' ']) = unwords ws := by
    rw [collapse_concat_of_isBlank (by decide),
      collapse_unwords fun w hw => ⟨(hws w hw).1, (hws w hw).forall_isBlank⟩]
  have hopening : '(' ∉ unwords ws := not_mem_unwords_of_isProse hws (by decide) (by decide)
  have hend : unwords ws ++ ' ' :: parenthesize inner
      = (unwords ws ++ [' ']) ++ '(' :: (inner ++ [')']) := by
    simp [parenthesize]
  rw [hword, ofText?, (isOutside_of_isProse hws).trim_unwords_concat, leading?, hleading, Option.map_none,
    Option.none_or, trailing?, ← hword, hend, Option.map_eq_some_iff, ← takeGroupBack?_eq_some_iff]
  constructor
  · rintro ⟨⟨before, found⟩, hfound, hblock⟩
    rw [mk.injEq] at hblock
    have hbefore : '(' ∉ before := by
      intro hmem
      apply hopening
      rw [← hblock.2]
      exact mem_collapse hmem (by decide)
    have hcut := takeGroupBack?_eq_append hfound
    rcases append_cons_eq_of_not_mem_front (by simpa using hopening) hbefore hcut with ⟨htext, hinner⟩
    rw [hfound, ← htext, ← List.append_cancel_right hinner]
  · intro hfound
    refine ⟨_, hfound, ?_⟩
    dsimp only
    rw [hcollapse]

/-- Next to some words a block is found in front of them exactly if its inside is a group, and behind them
exactly if it is one for backslashes that always escape.  Where no quote stands right behind a backslash, it is
found at both ends or at neither. -/
theorem ofText?_ends (hne : ws ≠ []) (hws : ∀ w ∈ ws, IsProse w) (inner : List Char) :
    (ofText? (parenthesize inner ++ ' ' :: unwords ws) = some ⟨trim inner, unwords ws⟩ ↔
        IsGroup .inside inner) ∧
      (ofText? (unwords ws ++ ' ' :: parenthesize inner) = some ⟨trim inner, unwords ws⟩ ↔
        IsGroup .anywhere inner) ∧
      (¬ ['\\', '"'] <:+: inner →
        (ofText? (parenthesize inner ++ ' ' :: unwords ws) = some ⟨trim inner, unwords ws⟩ ↔
          ofText? (unwords ws ++ ' ' :: parenthesize inner) = some ⟨trim inner, unwords ws⟩)) := by
  refine ⟨ofText?_leading_iff hne hws inner, ofText?_trailing_iff hne hws inner, fun hbackslash => ?_⟩
  rw [ofText?_leading_iff hne hws, ofText?_trailing_iff hne hws]
  exact isGroup_inside_iff_anywhere hbackslash

/-- A quoted default that ends with an escaped backslash is a block in front of a word, and none behind it. -/
theorem ofText?_ends_escapedBackslash :
    let inner := "default: \"C:\\\\\"".toList
    [['a']] ≠ [] ∧ (∀ w ∈ [['a']], IsProse w) ∧
      ofText? (parenthesize inner ++ ' ' :: unwords [['a']]) = some ⟨trim inner, unwords [['a']]⟩ ∧
      ofText? (unwords [['a']] ++ ' ' :: parenthesize inner) ≠ some ⟨trim inner, unwords [['a']]⟩ := by
  have hprose : ∀ w ∈ [['a']], IsProse w := by decide
  rcases ofText?_ends (List.cons_ne_nil _ _) hprose "default: \"C:\\\\\"".toList
    with ⟨hleading, htrailing, -⟩
  refine ⟨List.cons_ne_nil _ _, hprose, hleading.mpr (by decide), fun hfound => ?_⟩
  exact absurd (htrailing.mp hfound) (by decide)

end AttributeBlock

end CommandDoc
