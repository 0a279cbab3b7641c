/-!
# Ordered lists

Lists that stand in strictly ascending order, as sets and as finite maps. Every result of the library that
must not depend on the order of its input is kept in one of them.

Main definitions:

- `insertDistinct` and `sortDistinct`: a set as an ascending list without repetition.
- `find?`, `update`, `put` and `erase` on ascending lists of keys with values.

Main statements: `pairwise_sortDistinct` and `mem_sortDistinct` say that sorting is strict and keeps
exactly the elements given.
-/

namespace CommandDoc.Ordered

/-! ## Sets -/

/-- Put an element at its place in an ascending list; nothing happens if it is there already, that is,
if neither element comes before the other. -/
def insertDistinct {α : Type} (before : α → α → Bool) (x : α) : List α → List α
  | [] => [x]
  | y :: ys =>
    if before x y then x :: y :: ys
    else if before y x then y :: insertDistinct before x ys
    else y :: ys

/-- The distinct elements of a list in ascending order. -/
def sortDistinct {α : Type} (before : α → α → Bool) (xs : List α) : List α :=
  xs.foldr (insertDistinct before) []

/-- The order of strings by code points. -/
def stringBefore (s t : String) : Bool :=
  decide (s < t)

/-- The distinct strings of a list in ascending order. -/
def sortStrings (xs : List String) : List String :=
  sortDistinct stringBefore xs

/-! ## Maps -/

/-- The value at a key. -/
def find? {κ ν : Type} [DecidableEq κ] (key : κ) : List (κ × ν) → Option ν
  | [] => none
  | (k, v) :: entries => if k = key then some v else find? key entries

/-- Give the key the value `change` makes of its present value, at its place in the order. -/
def update {κ ν : Type} (before : κ → κ → Bool) (key : κ) (change : Option ν → ν) :
    List (κ × ν) → List (κ × ν)
  | [] => [(key, change none)]
  | (k, v) :: entries =>
    if before key k then (key, change none) :: (k, v) :: entries
    else if before k key then (k, v) :: update before key change entries
    else (k, change (some v)) :: entries

/-- Give the key a value. -/
def put {κ ν : Type} (before : κ → κ → Bool) (key : κ) (value : ν) (entries : List (κ × ν)) :
    List (κ × ν) :=
  update before key (fun _ => value) entries

/-- Take the key out of a map. -/
def erase {κ ν : Type} [DecidableEq κ] (key : κ) (entries : List (κ × ν)) : List (κ × ν) :=
  entries.filter fun entry => entry.1 ≠ key

/-! ## The laws of a strict order and what they give -/

/-- A strict total order given as a test. -/
structure StrictOrder {α : Type} (before : α → α → Bool) : Prop where
  /-- Nothing comes before itself. -/
  irrefl : ∀ x, before x x = false
  /-- The order is transitive. -/
  trans : ∀ x y z, before x y = true → before y z = true → before x z = true
  /-- Two elements of which neither comes first are the same. -/
  connected : ∀ x y, before x y = false → before y x = false → x = y

/-- Inserting adds the element and keeps the others. -/
theorem mem_insertDistinct {α : Type} {before : α → α → Bool} (order : StrictOrder before)
    {x z : α} {ys : List α} : z ∈ insertDistinct before x ys ↔ z = x ∨ z ∈ ys := by
  induction ys with
  | nil => simp [insertDistinct]
  | cons y ys ih =>
    rw [insertDistinct]
    split
    · simp
    · split
      · simp only [List.mem_cons, ih]
        constructor <;> (rintro (h | h | h) <;> simp [h])
      · next hxy hyx =>
        have : x = y := order.connected x y (by simpa using hxy) (by simpa using hyx)
        simp [this]

/-- Inserting keeps a list strictly ascending. -/
theorem pairwise_insertDistinct {α : Type} {before : α → α → Bool} (order : StrictOrder before)
    {x : α} {ys : List α} (h : ys.Pairwise fun a b => before a b = true) :
    (insertDistinct before x ys).Pairwise fun a b => before a b = true := by
  induction ys with
  | nil => simp [insertDistinct]
  | cons y ys ih =>
    rw [List.pairwise_cons] at h
    rw [insertDistinct]
    split
    · next hxy =>
      refine List.pairwise_cons.mpr ⟨?_, List.pairwise_cons.mpr h⟩
      intro z hz
      rcases List.mem_cons.mp hz with rfl | hz
      · exact hxy
      · exact order.trans _ _ _ hxy (h.1 z hz)
    · split
      · next hyx =>
        refine List.pairwise_cons.mpr ⟨?_, ih h.2⟩
        intro z hz
        rcases (mem_insertDistinct order).mp hz with rfl | hz
        · exact hyx
        · exact h.1 z hz
      · exact List.pairwise_cons.mpr h

/-- Sorting keeps exactly the elements given. -/
theorem mem_sortDistinct {α : Type} {before : α → α → Bool} (order : StrictOrder before)
    {z : α} {xs : List α} : z ∈ sortDistinct before xs ↔ z ∈ xs := by
  induction xs with
  | nil => simp [sortDistinct]
  | cons x xs ih =>
    rw [sortDistinct, List.foldr_cons, mem_insertDistinct order, List.mem_cons]
    exact or_congr_right ih

/-- Sorting gives a strictly ascending list. -/
theorem pairwise_sortDistinct {α : Type} {before : α → α → Bool} (order : StrictOrder before)
    (xs : List α) : (sortDistinct before xs).Pairwise fun a b => before a b = true := by
  induction xs with
  | nil => simp [sortDistinct]
  | cons x xs ih => exact pairwise_insertDistinct order ih

/-- Strings have a strict total order. -/
theorem stringBefore_strictOrder : StrictOrder stringBefore where
  irrefl s := decide_eq_false (String.lt_irrefl s)
  trans s t u := by
    simp only [stringBefore, decide_eq_true_eq]
    exact String.lt_trans
  connected s t := by
    simp only [stringBefore, decide_eq_false_iff_not]
    intro h₁ h₂
    exact String.le_antisymm (String.not_lt.mp h₂) (String.not_lt.mp h₁)

end CommandDoc.Ordered
