import Mathlib.Data.List.Chain
import CommandDoc.Proofs.Text.Words

/-!
# Single spaces

A collapsed text has no blanks but spaces, and no two of them side by side.  Both still hold of every part of it,
so they say when a text that was cut out of a collapsed one is collapsed itself.

Main definitions:

- `IsSingleSpaced`: every blank is a space that stands alone.

Main results:

- Theorem `isSingleSpaced_collapse`: collapsed texts are single spaced.
- Theorem `IsSingleSpaced.collapse_eq`: single spaced texts without a blank at either end are collapsed.
-/

namespace CommandDoc.Text

/-- A text in which every blank is a space and no two blanks stand side by side. -/
structure IsSingleSpaced (cs : List Char) : Prop where
  /-- Every blank is a space. -/
  eq_space : ∀ c ∈ cs, isBlank c = true → c = ' '
  /-- Of two neighbours at most one is a blank. -/
  apart : cs.IsChain fun a b => isBlank a = false ∨ isBlank b = false

theorem IsRun.isSingleSpaced {cs : List Char} (h : IsRun cs) : IsSingleSpaced cs where
  eq_space := by
    intro c hc hblank
    rw [h c hc] at hblank
    cases hblank
  apart := by
    induction cs with
    | nil => exact .nil
    | cons c cs ih =>
      rw [List.isChain_cons]
      exact ⟨fun _ _ => Or.inl (h c List.mem_cons_self), ih fun d hd => h d (List.mem_cons_of_mem _ hd)⟩

/-- A part of a single spaced text is single spaced. -/
theorem IsSingleSpaced.of_isInfix {cs part : List Char} (h : IsSingleSpaced cs) (hpart : part <:+: cs) :
    IsSingleSpaced part where
  eq_space := fun c hc => h.eq_space c (hpart.subset hc)
  apart := List.IsChain.infix h.apart hpart

/-- A run with a space and a single spaced text behind it, which does not start with a blank. -/
theorem IsSingleSpaced.append_cons {run rest : List Char} (hrun : IsRun run) (hrest : IsSingleSpaced rest)
    (hhead : ∀ c ∈ rest.head?, isBlank c = false) : IsSingleSpaced (run ++ ' ' :: rest) where
  eq_space := by
    intro c hc hblank
    rw [List.mem_append, List.mem_cons] at hc
    rcases hc with hc | rfl | hc
    · exact hrun.isSingleSpaced.eq_space c hc hblank
    · rfl
    · exact hrest.eq_space c hc hblank
  apart := by
    apply hrun.isSingleSpaced.apart.append
    · rw [List.isChain_cons]
      exact ⟨fun c hc => Or.inr (hhead c hc), hrest.apart⟩
    · intro c hc _ _
      exact Or.inl (hrun c (List.mem_of_mem_getLast? hc))

theorem isBlank_of_mem_head?_unwords {ws : List (List Char)} (hws : ∀ w ∈ ws, w ≠ [] ∧ IsRun w) :
    ∀ c ∈ (unwords ws).head?, isBlank c = false := by
  cases ws with
  | nil => simp [unwords]
  | cons w ws =>
    obtain ⟨hne, hrun⟩ := hws w List.mem_cons_self
    obtain ⟨c, cs, rfl⟩ := List.exists_cons_of_ne_nil hne
    rw [unwords_cons]
    simpa using hrun c List.mem_cons_self

theorem isSingleSpaced_unwords {ws : List (List Char)} (hws : ∀ w ∈ ws, w ≠ [] ∧ IsRun w) :
    IsSingleSpaced (unwords ws) := by
  induction ws with
  | nil => exact isRun_nil.isSingleSpaced
  | cons w ws ih =>
    have hrest : ∀ v ∈ ws, v ≠ [] ∧ IsRun v := fun v hv => hws v (List.mem_cons_of_mem _ hv)
    have hrun := (hws w List.mem_cons_self).2
    by_cases hempty : ws = []
    · rw [hempty, unwords_singleton]
      exact hrun.isSingleSpaced
    · rw [unwords_cons, spacedWords_eq hempty]
      exact (ih hrest).append_cons hrun (isBlank_of_mem_head?_unwords hrest)

/-- Collapsed texts are single spaced. -/
theorem isSingleSpaced_collapse (cs : List Char) : IsSingleSpaced (collapse cs) :=
  isSingleSpaced_unwords fun _ hw => ⟨ne_nil_of_mem_words hw, isRun_of_mem_words hw⟩

/-- Single spaced texts without a blank at either end are collapsed. -/
theorem IsSingleSpaced.collapse_eq {cs : List Char} (h : IsSingleSpaced cs)
    (hhead : ∀ c ∈ cs.head?, isBlank c = false) (hlast : ∀ c ∈ cs.getLast?, isBlank c = false) :
    collapse cs = cs := by
  induction cs using words_induction with
  | hrun run hrun =>
    rw [collapse, words_of_isRun hrun]
    split
    · next hempty => rw [hempty]; rfl
    · exact unwords_singleton run
  | hcons run c rest hrun hc ih =>
    have hspace : c = ' ' := h.eq_space c (by simp) hc
    have hne : run ≠ [] := by
      rintro rfl
      rw [hhead c rfl] at hc
      cases hc
    have hbehind := List.isChain_cons.mp h.apart.right_of_append
    have hrestHead : ∀ d ∈ rest.head?, isBlank d = false := fun d hd =>
      (hbehind.1 d hd).resolve_left (by simp [hc])
    have hrestNe : rest ≠ [] := by
      rintro rfl
      rw [hlast c (by simp)] at hc
      cases hc
    have hrest := ih (h.of_isInfix ((List.suffix_cons c rest).isInfix.trans (List.suffix_append run _).isInfix))
      hrestHead fun d hd => hlast d (by
        rw [List.getLast?_append_of_ne_nil _ (List.cons_ne_nil _ _), List.getLast?_cons_of_ne_nil hrestNe]
        exact hd)
    have hwords : words rest ≠ [] := by
      intro hnone
      rw [collapse, hnone] at hrest
      exact hrestNe hrest.symm
    rw [collapse, words_append_cons hc, words_of_isRun hrun, if_neg hne, List.singleton_append, ← unwords,
      unwords_cons, spacedWords_eq hwords, unwords, ← collapse, hrest, hspace]

end CommandDoc.Text
