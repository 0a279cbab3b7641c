import Mathlib.Data.List.Nodup
import Mathlib.Data.List.Perm.Subperm
import Mathlib.Data.Nat.Find
import CommandDoc.Name.Identifier
import CommandDoc.Proofs.Decimal

/-!
# Laws of generated identifiers

Every text has an identifier, and a pool never hands out a name twice.  The search for a free number ends
because the numbered names are all different: a pool with as many names as there are tries cannot hold them
all.

Main definitions:

- `IsGeneratedName`: an upper-case letter followed by letters and digits.

Main results:

- Theorem `isGeneratedName_identifier`: identifiers have this form, whatever they are made of.
- Theorem `NamePool.freshName_eq`: the name for a seed is its identifier, or the identifier with the least
  number that makes it free.
- Theorems `NamePool.not_mem_used_of_mem_allocateAll` and `NamePool.nodup_allocateAll`: the names that are
  handed out are new and all different.
-/

namespace CommandDoc

/-! ## The form of identifiers -/

/-- What generated names look like. -/
structure IsGeneratedName (name : String) : Prop where
  /-- The first character is an ASCII upper-case letter. -/
  starts_isUpper : ∃ c cs, name.toList = c :: cs ∧ c.isUpper = true
  /-- All characters are ASCII letters and digits. -/
  forall_isAlphanum : ∀ c ∈ name.toList, c.isAlphanum = true

theorem isAlphanum_of_isUpper {c : Char} (h : c.isUpper = true) : c.isAlphanum = true := by
  unfold Char.isAlphanum Char.isAlpha
  rw [h, Bool.true_or, Bool.true_or]

theorem isAlphanum_of_isDigit {c : Char} (h : c.isDigit = true) : c.isAlphanum = true := by
  rw [Char.isAlphanum, h, Bool.or_true]

/-- In upper case, a letter is an upper-case letter and a digit stays one. -/
theorem isUpper_or_isDigit_toUpper {c : Char} (h : c.isAlphanum = true) :
    c.toUpper.isUpper = true ∨ c.toUpper.isDigit = true := by
  unfold Char.isAlphanum Char.isAlpha Char.isUpper Char.isLower Char.isDigit at h
  unfold Char.isUpper Char.isDigit
  simp only [Bool.or_eq_true, Bool.and_eq_true, decide_eq_true_eq, ge_iff_le, UInt32.le_iff_toNat_le,
    Char.reduceVal, UInt32.reduceToNat] at h ⊢
  unfold Char.toUpper
  split
  · next hlower =>
    left
    simp only [UInt32.le_iff_toNat_le, Char.reduceVal, UInt32.reduceToNat, UInt32.toNat_add,
      UInt32.reduceSub] at hlower ⊢
    omega
  · next hlower =>
    simp only [UInt32.le_iff_toNat_le, Char.reduceVal, UInt32.reduceToNat] at hlower ⊢
    omega

theorem isAlphanum_toUpper {c : Char} (h : c.isAlphanum = true) : c.toUpper.isAlphanum = true := by
  rcases isUpper_or_isDigit_toUpper h with hupper | hdigit
  · exact isAlphanum_of_isUpper hupper
  · exact isAlphanum_of_isDigit hdigit

/-- The words that an identifier is made of hold letters and digits only, and none is empty. -/
theorem forall_mem_identifierWords {cs word : List Char}
    (h : word ∈ Text.nonemptyFields (fun c => !c.isAlphanum) cs) :
    word ≠ [] ∧ ∀ c ∈ word, c.isAlphanum = true := by
  obtain ⟨hfield, hne⟩ := List.mem_filter.mp h
  exact ⟨by simpa using hne, fun c hc => by simpa using Text.not_sep_of_mem_fields hfield hc⟩

/-- Words in Pascal case hold letters and digits only. -/
theorem forall_isAlphanum_pascalWords (cs : List Char) : ∀ c ∈ pascalWords cs, c.isAlphanum = true := by
  intro c hc
  obtain ⟨word, hword, hc⟩ := List.mem_flatMap.mp hc
  have halphanum := (forall_mem_identifierWords hword).2
  cases word with
  | nil => cases hc
  | cons first rest =>
    rcases List.mem_cons.mp hc with rfl | hc
    · exact isAlphanum_toUpper (halphanum first List.mem_cons_self)
    · exact halphanum c (List.mem_cons_of_mem _ hc)

/-- Words in Pascal case start with an upper-case letter or with a digit. -/
theorem isUpper_or_isDigit_of_pascalWords_eq {c : Char} {cs rest : List Char}
    (h : pascalWords cs = c :: rest) : c.isUpper = true ∨ c.isDigit = true := by
  rw [pascalWords] at h
  cases hwords : Text.nonemptyFields (fun c => !c.isAlphanum) cs with
  | nil =>
    rw [hwords] at h
    cases h
  | cons word words =>
    rw [hwords] at h
    obtain ⟨hne, halphanum⟩ := forall_mem_identifierWords (hwords ▸ List.mem_cons_self)
    obtain ⟨first, tail, rfl⟩ := List.exists_cons_of_ne_nil hne
    obtain ⟨rfl, -⟩ := List.cons.inj h
    exact isUpper_or_isDigit_toUpper (halphanum first List.mem_cons_self)

/-- Identifiers have the form of generated names. -/
theorem isGeneratedName_identifier (seed : String) : IsGeneratedName (identifier seed) := by
  have hfallback : ∀ c ∈ fallbackWord, c.isAlphanum = true := List.all_eq_true.mp (by decide)
  unfold identifier
  split
  · rw [fallbackWord]
    exact ⟨⟨'C', _, rfl, rfl⟩, List.all_eq_true.mp (by decide)⟩
  · next c cs hwords =>
    have halphanum := forall_isAlphanum_pascalWords seed.toList
    rw [hwords] at halphanum
    split
    · refine ⟨⟨'C', _, by rw [String.toList_ofList]; rfl, rfl⟩, ?_⟩
      rw [String.toList_ofList]
      exact List.forall_mem_append.mpr ⟨hfallback, halphanum⟩
    · next hdigit =>
      have hupper := (isUpper_or_isDigit_of_pascalWords_eq hwords).resolve_right hdigit
      rw [← String.toList_ofList (l := c :: cs)] at halphanum
      exact ⟨⟨c, cs, String.toList_ofList, hupper⟩, halphanum⟩

/-- A number behind a name of this form keeps the form. -/
theorem IsGeneratedName.append_toString {base : String} (h : IsGeneratedName base) (n : Nat) :
    IsGeneratedName (base ++ toString n) := by
  obtain ⟨c, cs, hbase, hupper⟩ := h.starts_isUpper
  refine ⟨⟨c, cs ++ (toString n).toList, ?_, hupper⟩, ?_⟩
  · rw [String.toList_append, hbase, List.cons_append]
  · rw [String.toList_append, List.forall_mem_append]
    exact ⟨h.forall_isAlphanum, fun d hd => isAlphanum_of_isDigit (Decimal.isDigit_of_mem_toString hd)⟩

/-! ## Numbered names -/

theorem toString_append_inj (base : String) {m n : Nat} (h : base ++ toString m = base ++ toString n) :
    m = n := by
  have htexts : base.toList ++ Nat.toDigits 10 m = base.toList ++ Nat.toDigits 10 n := by
    simpa using congrArg String.toList h
  have hdigits := List.append_cancel_left htexts
  rw [← Nat.ofDigitChars_toDigits (b := 10) (n := m) (by decide) (by decide), hdigits,
    Nat.ofDigitChars_toDigits (by decide) (by decide)]

namespace NamePool

/-- A list cannot hold more numbered names than it has members. -/
theorem exists_number_not_mem (used : List String) (base : String) (n : Nat) :
    ∃ k, n ≤ k ∧ k ≤ n + used.length ∧ base ++ toString k ∉ used := by
  by_contra hnone
  push Not at hnone
  have hnodup : ((List.range' n (used.length + 1)).map fun k => base ++ toString k).Nodup :=
    (List.nodup_range' (h := Nat.one_pos)).map fun _ _ h => toString_append_inj base h
  have hsub : ((List.range' n (used.length + 1)).map fun k => base ++ toString k) ⊆ used := by
    intro name hname
    obtain ⟨k, hk, rfl⟩ := List.mem_map.mp hname
    rw [List.mem_range'_1] at hk
    exact hnone k hk.1 (by omega)
  have hlength := (List.subperm_of_subset hnodup hsub).length_le
  rw [List.length_map, List.length_range'] at hlength
  omega

/-- The search stops at the first free number, if there is one within reach. -/
theorem numberedFrom_eq {used : List String} {base : String} {fuel n k : Nat} (hle : n ≤ k)
    (hfuel : k ≤ n + fuel) (hfree : base ++ toString k ∉ used)
    (htaken : ∀ j, n ≤ j → j < k → base ++ toString j ∈ used) :
    numberedFrom used base fuel n = base ++ toString k := by
  induction fuel generalizing n with
  | zero =>
    obtain rfl : n = k := by omega
    rfl
  | succ fuel ih =>
    rw [numberedFrom]
    by_cases hstop : n = k
    · rw [hstop, if_neg (mt List.contains_iff_mem.mp hfree)]
    · rw [if_pos (List.contains_iff_mem.mpr (htaken n (Nat.le_refl n) (by omega)))]
      exact ih (by omega) (by omega) fun j hj => htaken j (by omega)

/-- The name for a seed: its identifier if that is free, or else the identifier with the least number from 2
on that makes it free. -/
theorem freshName_eq (pool : NamePool) (seed : String) :
    (identifier seed ∉ pool.used ∧ pool.freshName seed = identifier seed) ∨
      (identifier seed ∈ pool.used ∧ ∃ k, 2 ≤ k ∧ pool.freshName seed = identifier seed ++ toString k ∧
        identifier seed ++ toString k ∉ pool.used ∧
        ∀ j, 2 ≤ j → j < k → identifier seed ++ toString j ∈ pool.used) := by
  rw [freshName, isUsed]
  by_cases hused : identifier seed ∈ pool.used
  · right
    have hfree := exists_number_not_mem pool.used (identifier seed) 2
    classical
    have hmin : ∀ j, 2 ≤ j → j < Nat.find hfree → identifier seed ++ toString j ∈ pool.used := by
      intro j hj hlt
      have hreach := (Nat.find_spec hfree).2.1
      by_contra hnot
      exact Nat.find_min hfree hlt ⟨hj, by omega, hnot⟩
    obtain ⟨hle, hreach, hnot⟩ := Nat.find_spec hfree
    rw [if_pos (List.contains_iff_mem.mpr hused), numberedFrom_eq hle hreach hnot hmin]
    exact ⟨hused, Nat.find hfree, hle, rfl, hnot, hmin⟩
  · rw [if_neg (mt List.contains_iff_mem.mp hused)]
    exact Or.inl ⟨hused, rfl⟩

theorem freshName_not_mem_used (pool : NamePool) (seed : String) : pool.freshName seed ∉ pool.used := by
  rcases pool.freshName_eq seed with ⟨hfree, heq⟩ | ⟨-, k, -, heq, hfree, -⟩
  · rwa [heq]
  · rwa [heq]

theorem isGeneratedName_freshName (pool : NamePool) (seed : String) :
    IsGeneratedName (pool.freshName seed) := by
  rcases pool.freshName_eq seed with ⟨-, heq⟩ | ⟨-, k, -, heq, -, -⟩
  · rw [heq]
    exact isGeneratedName_identifier seed
  · rw [heq]
    exact (isGeneratedName_identifier seed).append_toString k

/-! ## Many names from one pool -/

/-- Names that are handed out were not in use before. -/
theorem not_mem_used_of_mem_allocateAll {pool : NamePool} {seeds : List String} {name : String}
    (h : name ∈ pool.allocateAll seeds) : name ∉ pool.used := by
  induction seeds generalizing pool with
  | nil => cases h
  | cons seed seeds ih =>
    rcases List.mem_cons.mp h with rfl | hrest
    · exact pool.freshName_not_mem_used seed
    · exact fun hused => ih hrest (List.mem_cons_of_mem _ hused)

/-- No name is handed out twice. -/
theorem nodup_allocateAll (pool : NamePool) (seeds : List String) : (pool.allocateAll seeds).Nodup := by
  induction seeds generalizing pool with
  | nil => exact List.nodup_nil
  | cons seed seeds ih =>
    rw [allocateAll, List.nodup_cons]
    exact ⟨fun hagain => not_mem_used_of_mem_allocateAll hagain List.mem_cons_self, ih _⟩

theorem isGeneratedName_of_mem_allocateAll {pool : NamePool} {seeds : List String} {name : String}
    (h : name ∈ pool.allocateAll seeds) : IsGeneratedName name := by
  induction seeds generalizing pool with
  | nil => cases h
  | cons seed seeds ih =>
    rcases List.mem_cons.mp h with rfl | hrest
    · exact pool.isGeneratedName_freshName seed
    · exact ih hrest

end NamePool

end CommandDoc
