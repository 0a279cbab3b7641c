import Mathlib.Data.Prod.Lex
import Mathlib.Data.String.Basic
import CommandDoc.Warning

/-!
# The order of warnings

Sorting puts warnings into an order that depends only on what they are, not on how they were found.

Main results:

- Theorem `Warning.le_iff`: the sorting order compares location, kind and message in turn.
- Theorem `Warning.sort_eq_of_perm`: sorting gives the same for every arrangement of the warnings.
- Theorem `Warning.sort_append`: sorting warnings from two lists merges the sorted lists.
-/

namespace CommandDoc

theorem WarningKind.rank_injective : Function.Injective WarningKind.rank := by
  intro k l h
  cases k <;> cases l <;> first | rfl | exact absurd h (by decide)

namespace Warning

/-- What warnings are sorted by. -/
def sortKey (w : Warning) : String ×ₗ Nat ×ₗ String :=
  toLex (w.location, toLex (w.kind.rank, w.message))

theorem sortKey_injective : Function.Injective sortKey := by
  rintro ⟨kind, location, message⟩ ⟨kind', location', message'⟩ h
  simp only [sortKey, EmbeddingLike.apply_eq_iff_eq, Prod.mk.injEq] at h
  obtain ⟨hlocation, hrank, hmessage⟩ := h
  rw [hlocation, WarningKind.rank_injective hrank, hmessage]

/-- The sorting order is that of the keys. -/
theorem le_iff {v w : Warning} : v.le w = true ↔ v.sortKey ≤ w.sortKey := by
  simp only [sortKey, Prod.Lex.le_iff, ofLex_toLex]
  unfold le
  by_cases hlocation : v.location = w.location
  · by_cases hkind : v.kind = w.kind
    · have hmessage : Ordered.stringBefore w.message v.message = false ↔ v.message ≤ w.message := by
        rw [Ordered.stringBefore, decide_eq_false_iff_not, not_lt]
      simp [hlocation, hkind, hmessage]
    · have hrank : v.kind.rank ≠ w.kind.rank := fun h => hkind (WarningKind.rank_injective h)
      simp [hlocation, hkind, hrank]
  · simp [hlocation, Ordered.stringBefore]

theorem transitive_le (u v w : Warning) (huv : u.le v = true) (hvw : v.le w = true) : u.le w = true := by
  rw [le_iff] at huv hvw ⊢
  exact le_trans huv hvw

theorem total_le (v w : Warning) : (v.le w || w.le v) = true := by
  rw [Bool.or_eq_true, le_iff, le_iff]
  exact le_total _ _

theorem antisymmetric_le (v w : Warning) (hvw : v.le w = true) (hwv : w.le v = true) : v = w :=
  sortKey_injective (le_antisymm (le_iff.mp hvw) (le_iff.mp hwv))

theorem pairwise_sort (ws : List Warning) : (sort ws).Pairwise fun v w => v.le w = true :=
  List.pairwise_mergeSort transitive_le total_le ws

/-- Sorting gives the same for every arrangement of the warnings. -/
theorem sort_eq_of_perm {ws vs : List Warning} (hperm : ws.Perm vs) : sort ws = sort vs := by
  have hsorted : (sort ws).Perm (sort vs) :=
    (List.mergeSort_perm ws le).trans (hperm.trans (List.mergeSort_perm vs le).symm)
  exact hsorted.eq_of_pairwise (fun v w _ _ => antisymmetric_le v w) (pairwise_sort ws) (pairwise_sort vs)

/-- Sorting warnings from two lists merges the sorted lists. -/
theorem sort_append (ws vs : List Warning) : sort (ws ++ vs) = (sort ws).merge (sort vs) le := by
  have hsorted : (sort (ws ++ vs)).Perm ((sort ws).merge (sort vs) le) :=
    (List.mergeSort_perm (ws ++ vs) le).trans
      (((List.mergeSort_perm ws le).append (List.mergeSort_perm vs le)).symm.trans
        (List.merge_perm_append le).symm)
  have hmerged : ((sort ws).merge (sort vs) le).Pairwise fun v w => v.le w = true :=
    List.pairwise_merge transitive_le total_le _ _ (pairwise_sort ws) (pairwise_sort vs)
  exact hsorted.eq_of_pairwise (fun v w _ _ => antisymmetric_le v w) (pairwise_sort _) hmerged

end Warning

end CommandDoc
