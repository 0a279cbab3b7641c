import Mathlib.Order.Bounds.Basic
import CommandDoc.Proofs.Name.Identifier
import CommandDoc.Proofs.Text.Blank

/-!
# Handing out names

A call that finds its identifier taken tries one number after another, and nothing in the search bounds them.  It
ends in every pool, at the least number that makes the name free, because a pool holds finitely many names and the
numbered names are all different.

Main definitions:

- `NamePool.Search`: the search for a free number, step by step.
- `NamePool.Allocates`: what one call hands out and leaves behind.
- `NamePool.Run`: a sequence of calls.

Main results:

- Theorem `identifier_eq_self_iff`: the texts that are their own identifier are those of the form of identifiers.
- Theorem `NamePool.search_iff`: where the search ends.
- Theorem `NamePool.allocates_allocate`: one call.
- Theorem `NamePool.run_allocateAll`: all names that a pool of reserved names hands out.
-/

namespace CommandDoc

/-! ## Identifiers of identifiers -/

theorem toUpper_of_isUpper {c : Char} (h : c.isUpper = true) : c.toUpper = c := by
  unfold Char.isUpper at h
  unfold Char.toUpper
  simp only [decide_eq_true_eq, ge_iff_le, UInt32.le_iff_toNat_le, Char.reduceVal, UInt32.reduceToNat] at h
  refine dif_neg fun hlower => ?_
  simp only [UInt32.le_iff_toNat_le, Char.reduceVal, UInt32.reduceToNat] at hlower
  omega

theorem isDigit_eq_false_of_isUpper {c : Char} (h : c.isUpper = true) : c.isDigit = false := by
  unfold Char.isUpper at h
  unfold Char.isDigit
  simp only [decide_eq_true_eq, ge_iff_le, UInt32.le_iff_toNat_le, Char.reduceVal, UInt32.reduceToNat,
    Bool.and_eq_false_iff, decide_eq_false_iff_not] at h ⊢
  omega

/-- A text of the form of identifiers is one word, which starts in upper case already. -/
theorem IsGeneratedName.identifier_eq {name : String} (h : IsGeneratedName name) : identifier name = name := by
  obtain ⟨c, cs, hname, hupper⟩ := h.starts_isUpper
  have hwords : Text.nonemptyFields (fun c => !c.isAlphanum) name.toList = [c :: cs] := by
    rw [hname]
    refine Text.nonemptyFields_of_forall_not_sep (List.cons_ne_nil _ _) fun d hd => ?_
    rw [h.forall_isAlphanum d (by rwa [hname])]
    rfl
  have hpascal : pascalWords name.toList = c :: cs := by
    rw [pascalWords, hwords, List.flatMap_singleton, capitalize, toUpper_of_isUpper hupper]
  rw [identifier, hpascal]
  simp only [isDigit_eq_false_of_isUpper hupper, Bool.false_eq_true, if_false]
  rw [← hname, String.ofList_toList]

theorem identifier_eq_self_iff {name : String} : identifier name = name ↔ IsGeneratedName name :=
  ⟨fun h => h ▸ isGeneratedName_identifier name, IsGeneratedName.identifier_eq⟩

namespace NamePool

/-! ## The search for a number -/

/-- The search for a free number that stands at `n` and ends at `k`: the number at which it stands is tried, and
the next one if the name is taken. -/
inductive Search (used : List String) (base : String) : Nat → Nat → Prop
  | stop {n : Nat} : base ++ toString n ∉ used → Search used base n n
  | next {n k : Nat} : base ++ toString n ∈ used → Search used base (n + 1) k → Search used base n k

/-- The search ends at the least free number. -/
theorem search_iff {used : List String} {base : String} {n k : Nat} :
    Search used base n k ↔ IsLeast {j | n ≤ j ∧ base ++ toString j ∉ used} k := by
  constructor
  · intro h
    induction h with
    | stop hfree => exact ⟨⟨Nat.le_refl _, hfree⟩, fun j hj => hj.1⟩
    | @next n k htaken _ ih =>
      refine ⟨⟨Nat.le_of_succ_le ih.1.1, ih.1.2⟩, fun j hj => ih.2 ⟨?_, hj.2⟩⟩
      exact Nat.lt_of_le_of_ne hj.1 fun hn => hj.2 (hn ▸ htaken)
  · rintro ⟨⟨hle, hfree⟩, hleast⟩
    -- The search moves towards `k`, so its run is put together from the end.
    induction hle using Nat.decreasingInduction with
    | self => exact .stop hfree
    | of_succ n hlt ih =>
      have htaken : base ++ toString n ∈ used := by
        by_contra hn
        exact Nat.not_le_of_lt hlt (hleast ⟨Nat.le_refl n, hn⟩)
      exact .next htaken (ih fun j hj => hleast ⟨Nat.le_of_succ_le hj.1, hj.2⟩)

/-! ## One call -/

/-- A call for a seed hands out `name` and leaves the pool `next`. -/
structure Allocates (pool : NamePool) (seed name : String) (next : NamePool) : Prop where
  /-- A free identifier is handed out as it is. -/
  of_free : pool.isUsed (identifier seed) = false → name = identifier seed
  /-- A taken one gets the number at which the search from 2 on ends, which is the least that makes it free. -/
  of_taken : pool.isUsed (identifier seed) = true → ∃ k, Search pool.used (identifier seed) 2 k ∧
    IsLeast {j | 2 ≤ j ∧ pool.isUsed (identifier seed ++ toString j) = false} k ∧
      name = identifier seed ++ toString k
  /-- Behind the call the name is in use, and nothing else changes. -/
  isUsed_iff : ∀ other, next.isUsed other = true ↔ pool.isUsed other = true ∨ other = name

theorem isUsed_iff_mem {pool : NamePool} {name : String} : pool.isUsed name = true ↔ name ∈ pool.used :=
  List.contains_iff_mem

theorem isUsed_eq_false_iff {pool : NamePool} {name : String} : pool.isUsed name = false ↔ name ∉ pool.used := by
  rw [← isUsed_iff_mem, Bool.not_eq_true]

theorem allocates_allocate (pool : NamePool) (seed : String) :
    pool.Allocates seed (pool.allocate seed).1 (pool.allocate seed).2 where
  of_free hfree := by
    rcases pool.freshName_eq seed with ⟨-, heq⟩ | ⟨htaken, -⟩
    · exact heq
    · exact absurd htaken (isUsed_eq_false_iff.mp hfree)
  of_taken htaken := by
    rcases pool.freshName_eq seed with ⟨hfree, -⟩ | ⟨-, k, hle, heq, hfree, hbelow⟩
    · exact absurd (isUsed_iff_mem.mp htaken) hfree
    · have hleast : IsLeast {j | 2 ≤ j ∧ identifier seed ++ toString j ∉ pool.used} k := by
        refine ⟨⟨hle, hfree⟩, fun j hj => ?_⟩
        by_contra hlt
        exact hj.2 (hbelow j hj.1 (Nat.lt_of_not_le hlt))
      refine ⟨k, search_iff.mpr hleast, ?_, heq⟩
      simpa only [isUsed_eq_false_iff] using hleast
  isUsed_iff other := by
    rw [isUsed_iff_mem, isUsed_iff_mem, allocate, List.mem_cons]
    exact or_comm

/-! ## Many calls -/

/-- Calls for some seeds hand out some names, each call in the pool that the one before leaves. -/
inductive Run : NamePool → List String → List String → NamePool → Prop
  | nil {pool : NamePool} : Run pool [] [] pool
  | cons {pool next last : NamePool} {seed name : String} {seeds names : List String} :
      pool.Allocates seed name next → Run next seeds names last →
        Run pool (seed :: seeds) (name :: names) last

/-- After some calls the old names are in use and those handed out. -/
theorem Run.isUsed_iff {pool last : NamePool} {seeds names : List String} (h : Run pool seeds names last)
    (other : String) : last.isUsed other = true ↔ pool.isUsed other = true ∨ other ∈ names := by
  induction h with
  | nil => simp
  | cons hcall _ ih => rw [ih, hcall.isUsed_iff, List.mem_cons, or_assoc]

theorem exists_run_allocateAll (pool : NamePool) (seeds : List String) :
    ∃ last, Run pool seeds (pool.allocateAll seeds) last := by
  induction seeds generalizing pool with
  | nil => exact ⟨pool, .nil⟩
  | cons seed seeds ih =>
    obtain ⟨last, hrest⟩ := ih (pool.allocate seed).2
    exact ⟨last, .cons (pool.allocates_allocate seed) hrest⟩

theorem isUsed_withReserved {reserved : List String} {name : String} :
    (withReserved reserved).isUsed name = true ↔ name ∈ reservedNames ∨ name ∈ reserved := by
  rw [isUsed_iff_mem, withReserved, List.mem_append]

/-- From a pool of reserved names every seed in turn gets its identifier, with the least number from 2 on behind
it if it is in use.  All names are different, and none is reserved.  Identifiers start with an upper-case letter,
hold letters and digits only, and are their own identifiers. -/
theorem run_allocateAll (reserved seeds : List String) :
    (∃ last, Run (withReserved reserved) seeds ((withReserved reserved).allocateAll seeds) last ∧
        ∀ other, last.isUsed other = true ↔
          (other ∈ reservedNames ∨ other ∈ reserved) ∨ other ∈ (withReserved reserved).allocateAll seeds) ∧
      ((withReserved reserved).allocateAll seeds).Nodup ∧
      (∀ name ∈ (withReserved reserved).allocateAll seeds, name ∉ reservedNames ∧ name ∉ reserved) ∧
      ∀ seed, IsGeneratedName (identifier seed) ∧ identifier (identifier seed) = identifier seed := by
  refine ⟨?_, nodup_allocateAll _ _, fun name hname => ?_, fun seed => ?_⟩
  · obtain ⟨last, hrun⟩ := exists_run_allocateAll (withReserved reserved) seeds
    exact ⟨last, hrun, fun other => by rw [hrun.isUsed_iff, isUsed_withReserved]⟩
  · have hnew := not_mem_used_of_mem_allocateAll hname
    rwa [withReserved, List.mem_append, not_or] at hnew
  · exact ⟨isGeneratedName_identifier seed, identifier_eq_self_iff.mpr (isGeneratedName_identifier seed)⟩

-- The last seed is a numbered name that an earlier call has handed out.
example : (withReserved []).allocateAll ["x", "x", "x", "X2"] = ["X", "X2", "X3", "X22"] := by decide

end NamePool

end CommandDoc
