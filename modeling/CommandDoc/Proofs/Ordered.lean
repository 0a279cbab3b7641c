import CommandDoc.Ordered

/-!
# Ordered lists are determined by what they hold

A strictly ascending list is determined by its elements, and an ordered map by its keys and the value at
each of them. So a map that is built by many updates has a closed form: its keys in order, each with the
value that the updates leave there.

Main results:

- Theorem `eq_of_pairwise_of_mem_iff`: two ascending lists with the same elements are equal.
- Theorem `sortDistinct_append`: sorting two lists without a common element merges what sorting makes of each.
- Theorem `update_map`: an update of a map that tabulates a function tabulates the changed function.
- Theorem `find?_map`: looking up a key in such a map evaluates the function.
-/

namespace CommandDoc.Ordered

section

variable {α : Type} {before : α → α → Bool}

/-! ## Sets -/

/-- A strict order never holds both ways. -/
theorem StrictOrder.asymm (order : StrictOrder before) {x y : α} (h : before x y = true) :
    before y x = false := by
  cases hyx : before y x with
  | false => rfl
  | true =>
    have hxx : before x x = true := order.trans x y x h hyx
    rw [order.irrefl] at hxx
    exact absurd hxx (by simp)

theorem StrictOrder.ne (order : StrictOrder before) {x y : α} (h : before x y = true) : x ≠ y := by
  rintro rfl
  rw [order.irrefl] at h
  exact absurd h (by simp)

/-- A list in strict order has no repetition. -/
theorem nodup_of_pairwise (order : StrictOrder before) {xs : List α}
    (h : xs.Pairwise fun a b => before a b = true) : xs.Nodup :=
  h.imp order.ne

/-- Two ascending lists with the same elements are equal. -/
theorem eq_of_pairwise_of_mem_iff (order : StrictOrder before) {xs ys : List α}
    (hxs : xs.Pairwise fun a b => before a b = true) (hys : ys.Pairwise fun a b => before a b = true)
    (hmem : ∀ z, z ∈ xs ↔ z ∈ ys) : xs = ys := by
  have hperm : xs.Perm ys :=
    (List.perm_ext_iff_of_nodup (nodup_of_pairwise order hxs) (nodup_of_pairwise order hys)).mpr hmem
  refine hperm.eq_of_pairwise ?_ hxs hys
  intro a b _ _ hab hba
  rw [order.asymm hab] at hba
  exact absurd hba (by simp)

/-- Sorting depends only on the elements given, not on their order or how often they are given. -/
theorem sortDistinct_eq_of_mem_iff (order : StrictOrder before) {xs ys : List α}
    (hmem : ∀ z, z ∈ xs ↔ z ∈ ys) : sortDistinct before xs = sortDistinct before ys := by
  apply eq_of_pairwise_of_mem_iff order (pairwise_sortDistinct order xs) (pairwise_sortDistinct order ys)
  intro z
  rw [mem_sortDistinct order, mem_sortDistinct order, hmem]

/-- Inserting into a sorted list sorts the element too. -/
theorem insertDistinct_sortDistinct (order : StrictOrder before) (x : α) (xs : List α) :
    insertDistinct before x (sortDistinct before xs) = sortDistinct before (xs ++ [x]) := by
  apply eq_of_pairwise_of_mem_iff order (pairwise_insertDistinct order (pairwise_sortDistinct order xs))
    (pairwise_sortDistinct order _)
  intro z
  rw [mem_insertDistinct order, mem_sortDistinct order, mem_sortDistinct order, List.mem_append,
    List.mem_singleton, or_comm]

/-- Inserting what is there changes nothing. -/
theorem insertDistinct_eq_self (order : StrictOrder before) {x : α} {xs : List α}
    (hxs : xs.Pairwise fun a b => before a b = true) (hx : x ∈ xs) : insertDistinct before x xs = xs := by
  apply eq_of_pairwise_of_mem_iff order (pairwise_insertDistinct order hxs) hxs
  intro z
  rw [mem_insertDistinct order]
  constructor
  · rintro (rfl | hz)
    · exact hx
    · exact hz
  · exact Or.inr

/-! ## Merging -/

/-- Whether an element can stand before another in an ascending list that may repeat elements. -/
def notAfter (before : α → α → Bool) (x y : α) : Bool :=
  !before y x

theorem notAfter_trans (order : StrictOrder before) (x y z : α) (hxy : notAfter before x y = true)
    (hyz : notAfter before y z = true) : notAfter before x z = true := by
  simp only [notAfter, Bool.not_eq_true'] at hxy hyz ⊢
  cases hzx : before z x with
  | false => rfl
  | true =>
    -- Then the middle element stands on neither side of the last one, and so is the same.
    cases hyz' : before y z with
    | true =>
      rw [order.trans y z x hyz' hzx] at hxy
      exact hxy
    | false =>
      rw [order.connected y z hyz' hyz, hzx] at hxy
      exact hxy

theorem notAfter_total (order : StrictOrder before) (x y : α) :
    (notAfter before x y || notAfter before y x) = true := by
  cases hyx : before y x with
  | false => simp [notAfter, hyx]
  | true => simp [notAfter, order.asymm hyx]

theorem notAfter_antisymm (order : StrictOrder before) (x y : α) (hxy : notAfter before x y = true)
    (hyx : notAfter before y x = true) : x = y := by
  simp only [notAfter, Bool.not_eq_true'] at hxy hyx
  exact order.connected x y hyx hxy

/-- Sorting elements that come from two lists without a common element merges the sorted lists. -/
theorem sortDistinct_append (order : StrictOrder before) {xs ys : List α} (hapart : ∀ x ∈ xs, x ∉ ys) :
    sortDistinct before (xs ++ ys)
      = (sortDistinct before xs).merge (sortDistinct before ys) (notAfter before) := by
  have hascending : ∀ zs, (sortDistinct before zs).Pairwise fun x y => notAfter before x y = true := by
    intro zs
    refine (pairwise_sortDistinct order zs).imp fun hxy => ?_
    rw [notAfter, order.asymm hxy]
    rfl
  have hnodup : ((sortDistinct before xs).merge (sortDistinct before ys) (notAfter before)).Nodup := by
    rw [(List.merge_perm_append _).nodup_iff, List.nodup_append]
    refine ⟨nodup_of_pairwise order (pairwise_sortDistinct order xs),
      nodup_of_pairwise order (pairwise_sortDistinct order ys), ?_⟩
    rintro x hx y hy rfl
    exact hapart x ((mem_sortDistinct order).mp hx) ((mem_sortDistinct order).mp hy)
  have hperm : (sortDistinct before (xs ++ ys)).Perm
      ((sortDistinct before xs).merge (sortDistinct before ys) (notAfter before)) := by
    rw [List.perm_ext_iff_of_nodup (nodup_of_pairwise order (pairwise_sortDistinct order _)) hnodup]
    intro z
    rw [List.mem_merge, mem_sortDistinct order, mem_sortDistinct order, mem_sortDistinct order,
      List.mem_append]
  have hmerged : ((sortDistinct before xs).merge (sortDistinct before ys) (notAfter before)).Pairwise
      fun x y => notAfter before x y = true :=
    List.pairwise_merge (notAfter_trans order) (notAfter_total order) _ _ (hascending xs) (hascending ys)
  exact hperm.eq_of_pairwise (fun x y _ _ => notAfter_antisymm order x y) (hascending _) hmerged

/-! ## Maps -/

/-- An update puts its key among the others. -/
theorem map_fst_update {ν : Type} (key : α) (change : Option ν → ν) (entries : List (α × ν)) :
    (update before key change entries).map Prod.fst = insertDistinct before key (entries.map Prod.fst) := by
  induction entries with
  | nil => rfl
  | cons entry entries ih =>
    rw [update, List.map_cons, insertDistinct]
    split
    · rfl
    · split
      · rw [List.map_cons, ih]
      · rfl

/-- An update passes by the keys before its own. -/
theorem update_append_of_before {ν : Type} (order : StrictOrder before) {key : α} (change : Option ν → ν)
    {front : List (α × ν)} (h : ∀ entry ∈ front, before entry.1 key = true) (rest : List (α × ν)) :
    update before key change (front ++ rest) = front ++ update before key change rest := by
  induction front with
  | nil => rfl
  | cons entry front ih =>
    have hentry := h entry List.mem_cons_self
    rw [List.cons_append, update, order.asymm hentry, if_neg Bool.false_ne_true, if_pos hentry,
      ih fun other hother => h other (List.mem_cons_of_mem _ hother), List.cons_append]

/-- An update leaves the keys behind its own as they are. -/
theorem update_append_of_after {ν : Type} {key : α} (change : Option ν → ν) (front : List (α × ν))
    {rest : List (α × ν)} (h : ∀ entry ∈ rest, before key entry.1 = true) :
    update before key change (front ++ rest) = update before key change front ++ rest := by
  induction front with
  | nil =>
    cases rest with
    | nil => rfl
    | cons entry rest =>
      simp [update, h entry List.mem_cons_self]
  | cons entry front ih =>
    rw [List.cons_append, update, update, ih]
    split
    · rfl
    · split
      · rfl
      · rfl

/-- Keys and values can be replaced before an update or after it, if the new keys stand in the same order. -/
theorem update_map_entry {κ μ ν : Type} {before' : κ → κ → Bool} {f : α → κ} {g : μ → ν}
    (hbefore : ∀ x y, before' (f x) (f y) = before x y) {key : α} {change : Option μ → μ}
    {change' : Option ν → ν} (hchange : ∀ present, change' (present.map g) = g (change present))
    (entries : List (α × μ)) :
    update before' (f key) change' (entries.map fun entry => (f entry.1, g entry.2))
      = (update before key change entries).map fun entry => (f entry.1, g entry.2) := by
  induction entries with
  | nil => rw [List.map_nil, update, update, List.map_singleton, ← hchange, Option.map_none]
  | cons entry entries ih =>
    rw [List.map_cons, update, update, hbefore, hbefore]
    split
    · rw [List.map_cons, List.map_cons, ← hchange, Option.map_none]
    · split
      · rw [List.map_cons, ih]
      · rw [List.map_cons, ← hchange, Option.map_some]

/-- What stands in a map with a new value stood there before it or is that value. -/
theorem mem_put {ν : Type} {key : α} {value : ν} {entries : List (α × ν)} {entry : α × ν}
    (h : entry ∈ put before key value entries) : entry ∈ entries ∨ entry.2 = value := by
  induction entries with
  | nil => exact Or.inr (congrArg Prod.snd (List.mem_singleton.mp h))
  | cons first entries ih =>
    rw [put, update] at h
    split at h
    · rcases List.mem_cons.mp h with rfl | h
      · exact Or.inr rfl
      · exact Or.inl h
    · split at h
      · rcases List.mem_cons.mp h with rfl | h
        · exact Or.inl List.mem_cons_self
        · exact (ih h).imp_left (List.mem_cons_of_mem _)
      · rcases List.mem_cons.mp h with rfl | h
        · exact Or.inr rfl
        · exact Or.inl (List.mem_cons_of_mem _ h)

variable {ν : Type} [DecidableEq α]

/-- Behind keys that differ, a key is looked up in the rest. -/
theorem find?_append {key : α} {front : List (α × ν)} (h : ∀ entry ∈ front, entry.1 ≠ key)
    (rest : List (α × ν)) : find? key (front ++ rest) = find? key rest := by
  induction front with
  | nil => rfl
  | cons entry front ih =>
    rw [List.cons_append, find?, if_neg (h entry List.mem_cons_self),
      ih fun other hother => h other (List.mem_cons_of_mem _ hother)]

/-- A key that stands in front of others is found as it would be alone. -/
theorem find?_append_of_ne {key : α} (front : List (α × ν)) {rest : List (α × ν)}
    (h : ∀ entry ∈ rest, entry.1 ≠ key) : find? key (front ++ rest) = find? key front := by
  induction front with
  | nil =>
    rw [List.nil_append, ← List.append_nil rest, find?_append h]
  | cons entry front ih => rw [List.cons_append, find?, find?, ih]

/-- Keys and values can be replaced before a lookup or after it, if different keys stay different. -/
theorem find?_map_entry {κ μ : Type} [DecidableEq κ] {f : α → κ} (hinjective : Function.Injective f)
    (g : ν → μ) (key : α) (entries : List (α × ν)) :
    find? (f key) (entries.map fun entry => (f entry.1, g entry.2)) = (find? key entries).map g := by
  induction entries with
  | nil => rfl
  | cons entry entries ih =>
    rw [List.map_cons, find?, find?, ih]
    by_cases hkey : entry.1 = key
    · rw [if_pos hkey, if_pos (congrArg f hkey), Option.map_some]
    · rw [if_neg hkey, if_neg fun heq => hkey (hinjective heq)]

/-- Looking up a key that stands in a map once. -/
theorem find?_eq_some_of_mem {entries : List (α × ν)} {key : α} {value : ν}
    (hkeys : (entries.map Prod.fst).Nodup) (hmem : (key, value) ∈ entries) :
    find? key entries = some value := by
  induction entries with
  | nil => cases hmem
  | cons entry entries ih =>
    obtain ⟨k, v⟩ := entry
    rw [List.map_cons, List.nodup_cons] at hkeys
    rw [find?]
    rcases List.mem_cons.mp hmem with heq | hrest
    · cases heq
      rw [if_pos rfl]
    · have hne : k ≠ key := by
        rintro rfl
        exact hkeys.1 (List.mem_map.mpr ⟨_, hrest, rfl⟩)
      rw [if_neg hne, ih hkeys.2 hrest]

/-- What is found under a key is an entry. -/
theorem mem_of_find?_eq_some {entries : List (α × ν)} {key : α} {value : ν}
    (h : find? key entries = some value) : (key, value) ∈ entries := by
  induction entries with
  | nil => cases h
  | cons entry entries ih =>
    obtain ⟨k, v⟩ := entry
    rw [find?] at h
    by_cases hk : k = key
    · rw [if_pos hk] at h
      cases h
      rw [hk]
      exact List.mem_cons_self
    · rw [if_neg hk] at h
      exact List.mem_cons_of_mem _ (ih h)

/-- Nothing is found under a key that no entry has. -/
theorem find?_eq_none {key : α} {entries : List (α × ν)} (h : key ∉ entries.map (·.1)) :
    find? key entries = none := by
  cases hfound : find? key entries with
  | none => rfl
  | some value => exact absurd (List.mem_map_of_mem (mem_of_find?_eq_some hfound)) h

/-- A key that is taken out is not found any more, and the others are found as before. -/
theorem find?_erase (key taken : α) (entries : List (α × ν)) :
    find? key (erase taken entries) = if key = taken then none else find? key entries := by
  induction entries with
  | nil => simp [erase, find?]
  | cons entry entries ih =>
    obtain ⟨k, v⟩ := entry
    rw [erase] at ih ⊢
    by_cases htaken : k = taken
    · rw [List.filter_cons_of_neg (by simpa using htaken), ih, find?]
      by_cases hkey : key = taken
      · rw [if_pos hkey, if_pos hkey]
      · rw [if_neg hkey, if_neg hkey, if_neg fun heq => hkey (heq.symm.trans htaken)]
    · rw [List.filter_cons_of_pos (by simpa using htaken), find?, find?, ih]
      by_cases hkey : key = taken
      · rw [if_pos hkey, if_pos hkey, if_neg fun heq => htaken (heq.trans hkey)]
      · rw [if_neg hkey, if_neg hkey]

/-- Looking up a key in a map that tabulates a function. -/
theorem find?_map (keys : List α) (f : α → ν) (key : α) :
    find? key (keys.map fun k => (k, f k)) = if key ∈ keys then some (f key) else none := by
  induction keys with
  | nil => rfl
  | cons k keys ih =>
    rw [List.map_cons, find?]
    by_cases hk : k = key
    · subst hk
      simp
    · simp only [if_neg hk, ih, List.mem_cons, Ne.symm hk, false_or]

/-- Updating a map that tabulates a function: the key is added at its place, and the value at it is what
the update makes of the present one. -/
theorem update_map (order : StrictOrder before) {keys : List α}
    (hkeys : keys.Pairwise fun a b => before a b = true) (f : α → ν) (key : α)
    (change : Option ν → ν) :
    update before key change (keys.map fun k => (k, f k))
      = (insertDistinct before key keys).map fun k =>
          (k, if k = key then change (if key ∈ keys then some (f key) else none) else f k) := by
  induction keys with
  | nil => simp [update, insertDistinct]
  | cons k keys ih =>
    rw [List.pairwise_cons] at hkeys
    rw [List.map_cons, update, insertDistinct]
    by_cases hlt : before key k = true
    · -- The key comes before all others, so it is none of them.
      have hall : ∀ z ∈ k :: keys, z ≠ key := by
        intro z hz
        rcases List.mem_cons.mp hz with rfl | hz
        · exact (order.ne hlt).symm
        · exact (order.ne (order.trans key k z hlt (hkeys.1 z hz))).symm
      have hnot : key ∉ k :: keys := fun h => hall key h rfl
      have hrest : ((k :: keys).map fun z => (z, if z = key then change none else f z))
          = (k :: keys).map fun z => (z, f z) := by
        apply List.map_congr_left
        intro z hz
        rw [if_neg (hall z hz)]
      rw [if_pos hlt, if_pos hlt, List.map_cons, if_pos rfl, if_neg hnot, hrest, List.map_cons]
    · rw [if_neg hlt, if_neg hlt]
      by_cases hgt : before k key = true
      · have hne : k ≠ key := order.ne hgt
        rw [if_pos hgt, if_pos hgt, ih hkeys.2, List.map_cons, if_neg hne]
        simp only [List.mem_cons, Ne.symm hne, false_or]
      · have heq : key = k := order.connected key k (by simpa using hlt) (by simpa using hgt)
        subst heq
        rw [if_neg hgt, if_neg hgt, List.map_cons, if_pos rfl, if_pos List.mem_cons_self]
        congr 1
        apply List.map_congr_left
        intro z hz
        rw [if_neg (order.ne (hkeys.1 z hz)).symm]

/-- Putting an entry among entries that depend on their keys inserts the key. -/
theorem put_map (order : StrictOrder before) {keys : List α}
    (hkeys : keys.Pairwise fun a b => before a b = true) (f : α → ν) (key : α) (value : ν) :
    put before key value (keys.map fun k => (k, f k))
      = (insertDistinct before key keys).map fun k => (k, if k = key then value else f k) :=
  update_map order hkeys f key fun _ => value

end

end CommandDoc.Ordered
