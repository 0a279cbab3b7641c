import CommandDoc.Param.AttributeBlock
import CommandDoc.Proofs.Text.Nesting

/-!
# Where the attribute block of a text is found

A balanced block is found if it is all of the text or stands behind words without parentheses, and words alone
hold no block.

Main results:

- Theorem `AttributeBlock.ofText?_append`: the block behind some words is found.
- Theorem `AttributeBlock.ofText?_eq_none`: without parentheses there is no block.
-/

namespace CommandDoc

open Text

/-! ## Groups at the ends of a text -/

theorem Text.takeGroup?_eq_none {cs : List Char} (h : cs.head? ≠ some '(') : takeGroup? cs = none := by
  rw [takeGroup?]
  rintro rest rfl
  exact h rfl

theorem Text.takeGroupBack?_eq_none {cs : List Char} (h : cs.getLast? ≠ some ')') : takeGroupBack? cs = none := by
  rw [takeGroupBack?]
  split
  · next back hback => exact absurd (by rw [← List.head?_reverse, hback]; rfl) h
  · rfl

namespace AttributeBlock

/-- A text in parentheses. -/
def parenthesize (inner : List Char) : List Char :=
  '(' :: (inner ++ [')'])

theorem parenthesize_append (inner rest : List Char) :
    parenthesize inner ++ rest = '(' :: (inner ++ ')' :: rest) := by
  simp [parenthesize]

theorem trim_parenthesize (inner : List Char) : trim (parenthesize inner) = parenthesize inner :=
  trim_surround (by decide) (by decide) inner

/-! ## Blocks -/

/-- A text that can stand in front of a block: words without an opening parenthesis. -/
def IsOutside (ws : List (List Char)) : Prop :=
  ∀ w ∈ ws, w ≠ [] ∧ ∀ c ∈ w, isBlank c = false ∧ c ≠ '('

theorem IsOutside.forall_isBlank {ws : List (List Char)} (h : IsOutside ws) :
    ∀ w ∈ ws, w ≠ [] ∧ ∀ c ∈ w, isBlank c = false :=
  fun w hw => ⟨(h w hw).1, fun c hc => ((h w hw).2 c hc).1⟩

theorem IsOutside.trim_unwords_concat {ws : List (List Char)} (h : IsOutside ws) (inner : List Char) :
    trim (unwords (ws ++ [parenthesize inner])) = unwords (ws ++ [parenthesize inner]) := by
  refine trim_intercalate (fun w hw => ?_) fun w hw => ?_
  · rcases List.mem_append.mp hw with hw | hw
    · exact (h w hw).1
    · rw [List.mem_singleton.mp hw]
      exact List.cons_ne_nil _ _
  · rcases List.mem_append.mp hw with hw | hw
    · exact trim_of_forall_not_isBlank (h.forall_isBlank w hw).2
    · rw [List.mem_singleton.mp hw]
      exact trim_parenthesize inner

/-- Words in front of other words keep a group from standing at the start. -/
theorem IsOutside.takeGroup?_eq_none {w : List Char} {ws : List (List Char)} (h : IsOutside (w :: ws))
    (behind : List (List Char)) : takeGroup? (unwords (w :: ws ++ behind)) = none := by
  obtain ⟨hne, hfree⟩ := h w List.mem_cons_self
  obtain ⟨c, cs, rfl⟩ := List.exists_cons_of_ne_nil hne
  refine Text.takeGroup?_eq_none fun hhead => (hfree c List.mem_cons_self).2 ?_
  rw [List.cons_append, unwords_cons] at hhead
  exact Option.some.inj hhead

/-- The block behind some words is found. -/
theorem ofText?_append {ws : List (List Char)} (hws : IsOutside ws) {inner : List Char}
    (hbalanced : IsBalanced [] inner) (htrim : trim inner = inner) :
    ofText? (unwords (ws ++ [parenthesize inner])) = some ⟨inner, unwords ws⟩ := by
  rw [ofText?, hws.trim_unwords_concat, leading?, trailing?]
  -- Without words the block is the leading group, and behind words it is the trailing one.
  cases ws with
  | nil =>
    have hgroup : takeGroup? (unwords ([] ++ [parenthesize inner])) = some (inner, []) := by
      rw [List.nil_append, unwords_singleton]
      exact takeGroup?_append hbalanced []
    rw [hgroup, Option.map_some]
    dsimp only
    rw [htrim]
    rfl
  | cons w ws =>
    have hsplit : unwords (w :: ws ++ [parenthesize inner])
        = (unwords (w :: ws) ++ [' ']) ++ '(' :: (inner ++ [')']) := by
      rw [unwords_append (List.cons_ne_nil _ _) (List.cons_ne_nil _ _), unwords_singleton, List.append_assoc]
      rfl
    rw [hws.takeGroup?_eq_none, Option.map_none, Option.none_or, hsplit, takeGroupBack?_append hbalanced,
      Option.map_some]
    dsimp only
    rw [htrim, collapse_concat_of_isBlank (by decide), collapse_unwords hws.forall_isBlank]

/-- Without parentheses there is no block. -/
theorem ofText?_eq_none {cs : List Char} (htrim : trim cs = cs) (hopening : '(' ∉ cs)
    (hclosing : ')' ∉ cs) : ofText? cs = none := by
  have hhead : cs.head? ≠ some '(' := fun h => hopening (List.mem_of_mem_head? h)
  have hlast : cs.getLast? ≠ some ')' := fun h => hclosing (List.mem_of_mem_getLast? h)
  rw [ofText?, htrim, leading?, trailing?, takeGroup?_eq_none hhead, takeGroupBack?_eq_none hlast]
  rfl

end AttributeBlock

end CommandDoc
