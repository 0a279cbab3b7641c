import Mathlib.Data.List.Forall2

/-!
# Steps that can fail

When a chain of steps succeeds, every step of it did.  These laws take a successful run apart.

Main results:

- Theorems `bind_eq_ok_iff` and `bind_eq_error_iff`: two steps in a row.
- Theorem `map_eq_ok_iff`: a step whose result is changed.
- Theorem `mapM_eq_ok_iff`: one step for each element of a list; `exists_of_mem_of_mapM_eq_ok` and
  `map_eq_of_mapM_eq_ok` read such a run backwards, and `exists_of_mapM_eq_error` one that fails.
- Theorem `mapM_eq_map`: such a run with every result changed.
-/

namespace CommandDoc

variable {ε α β : Type}

theorem exists_eq_ok_of_isOk {step : Except ε α} (h : step.isOk = true) : ∃ a, step = .ok a := by
  cases step with
  | error e => exact absurd h (by simp [Except.isOk, Except.toBool])
  | ok a => exact ⟨a, rfl⟩

/-- Two steps in a row succeed exactly if both do. -/
theorem bind_eq_ok_iff {step : Except ε α} {next : α → Except ε β} {b : β} :
    (step >>= next) = .ok b ↔ ∃ a, step = .ok a ∧ next a = .ok b := by
  cases step with
  | error e => simp [bind, Except.bind]
  | ok a => simp [bind, Except.bind]

/-- Two steps in a row fail with the error of the first one that does. -/
theorem bind_eq_error_iff {step : Except ε α} {next : α → Except ε β} {e : ε} :
    (step >>= next) = .error e ↔ step = .error e ∨ ∃ a, step = .ok a ∧ next a = .error e := by
  cases step with
  | error e => simp [bind, Except.bind]
  | ok a => simp [bind, Except.bind]

/-- A step whose result is changed succeeds exactly if the step does. -/
theorem map_eq_ok_iff {step : Except ε α} {f : α → β} {b : β} :
    step.map f = .ok b ↔ ∃ a, step = .ok a ∧ f a = b := by
  cases step with
  | error e => simp [Except.map]
  | ok a => simp [Except.map]

theorem map_eq_error_iff {step : Except ε α} {f : α → β} {e : ε} :
    step.map f = .error e ↔ step = .error e := by
  cases step with
  | error e' => simp [Except.map]
  | ok a => simp [Except.map]

/-- A step for each element of a list succeeds exactly if it does for all of them. -/
theorem mapM_eq_ok_iff {step : α → Except ε β} {xs : List α} {ys : List β} :
    xs.mapM step = .ok ys ↔ List.Forall₂ (fun x y => step x = .ok y) xs ys := by
  induction xs generalizing ys with
  | nil => simp [pure, Except.pure, eq_comm]
  | cons x xs ih =>
    rw [List.mapM_cons, bind_eq_ok_iff]
    constructor
    · rintro ⟨y, hy, hcons⟩
      obtain ⟨rest, hrest, heq⟩ := bind_eq_ok_iff.mp hcons
      cases heq
      exact .cons hy (ih.mp hrest)
    · intro h
      cases h with
      | cons hy hrest => exact ⟨_, hy, bind_eq_ok_iff.mpr ⟨_, ih.mpr hrest, rfl⟩⟩

/-- In lists that are related element by element, every element of the second has its partner. -/
theorem exists_of_mem_right {related : α → β → Prop} {xs : List α} {ys : List β}
    (h : List.Forall₂ related xs ys) {y : β} (hy : y ∈ ys) : ∃ x ∈ xs, related x y := by
  induction h with
  | nil => cases hy
  | cons hxy _ ih =>
    rcases List.mem_cons.mp hy with rfl | hy
    · exact ⟨_, List.mem_cons_self, hxy⟩
    · obtain ⟨x, hx, hrelated⟩ := ih hy
      exact ⟨x, List.mem_cons_of_mem _ hx, hrelated⟩

theorem exists_of_mem_left {related : α → β → Prop} {xs : List α} {ys : List β}
    (h : List.Forall₂ related xs ys) {x : α} (hx : x ∈ xs) : ∃ y ∈ ys, related x y :=
  exists_of_mem_right h.flip hx

/-- In lists that are related element by element, an element has its partner at the same place. -/
theorem exists_getElem?_of_forall₂ {related : α → β → Prop} {xs : List α} {ys : List β}
    (h : List.Forall₂ related xs ys) {i : Nat} {x : α} (hx : xs[i]? = some x) :
    ∃ y, ys[i]? = some y ∧ related x y := by
  induction h generalizing i with
  | nil => cases hx
  | cons hxy _ ih =>
    cases i with
    | zero =>
      cases hx
      exact ⟨_, rfl, hxy⟩
    | succ i => exact ih hx

/-- Lists that are related element by element through a third one are related by what follows from both
relations. -/
theorem forall₂_of_forall₂_forall₂ {γ : Type} {r : α → β → Prop} {s : β → γ → Prop} {t : α → γ → Prop}
    (hrel : ∀ x y z, r x y → s y z → t x z) {xs : List α} {ys : List β} {zs : List γ}
    (hxy : List.Forall₂ r xs ys) (hyz : List.Forall₂ s ys zs) : List.Forall₂ t xs zs := by
  induction hxy generalizing zs with
  | nil =>
    cases hyz
    exact .nil
  | cons hhead _ ih =>
    cases hyz with
    | cons hnext hrest => exact .cons (hrel _ _ _ hhead hnext) (ih hrest)

/-- What every element has in common with its partner, the lists have in common. -/
theorem map_eq_of_forall₂ {γ : Type} {related : α → β → Prop} {f : α → γ} {g : β → γ}
    (hrelated : ∀ x y, related x y → g y = f x) {xs : List α} {ys : List β}
    (h : List.Forall₂ related xs ys) : ys.map g = xs.map f := by
  induction h with
  | nil => rfl
  | cons hxy _ ih => rw [List.map_cons, List.map_cons, hrelated _ _ hxy, ih]

/-- Lists that are related element by element are merged alike, if their elements are compared alike. -/
theorem forall₂_merge {related : α → β → Prop} {le : α → α → Bool} {le' : β → β → Bool}
    (hle : ∀ v w x y, related v x → related w y → le v w = le' x y) {vs ws : List α} {xs ys : List β}
    (h : List.Forall₂ related vs xs) (h' : List.Forall₂ related ws ys) :
    List.Forall₂ related (vs.merge ws le) (xs.merge ys le') := by
  induction h generalizing ws ys with
  | nil => simpa using h'
  | @cons v x vs xs hvx hrest ih =>
    induction h' with
    | nil => simpa using List.Forall₂.cons hvx hrest
    | @cons w y ws ys hwy hrest' ih' =>
      rw [List.cons_merge_cons, List.cons_merge_cons, hle v w x y hvx hwy]
      split
      · exact .cons hvx (ih (.cons hwy hrest'))
      · exact .cons hwy ih'

/-- Every result of such a run comes from an element. -/
theorem exists_of_mem_of_mapM_eq_ok {step : α → Except ε β} {xs : List α} {ys : List β} {y : β}
    (h : xs.mapM step = .ok ys) (hy : y ∈ ys) : ∃ x ∈ xs, step x = .ok y :=
  exists_of_mem_right (mapM_eq_ok_iff.mp h) hy

/-- Such a run fails with the error of an element. -/
theorem exists_of_mapM_eq_error {step : α → Except ε β} {xs : List α} {e : ε}
    (h : xs.mapM step = .error e) : ∃ x ∈ xs, step x = .error e := by
  induction xs with
  | nil => cases h
  | cons x xs ih =>
    rw [List.mapM_cons] at h
    cases hx : step x with
    | error e' =>
      rw [hx] at h
      cases h
      exact ⟨x, List.mem_cons_self, hx⟩
    | ok y =>
      cases hrest : xs.mapM step with
      | error e' =>
        rw [hx, hrest] at h
        cases h
        obtain ⟨x', hx', hstep⟩ := ih hrest
        exact ⟨x', List.mem_cons_of_mem _ hx', hstep⟩
      | ok ys =>
        rw [hx, hrest] at h
        cases h

/-- What every step carries over from its element, such a run carries over from the list. -/
theorem map_eq_of_mapM_eq_ok {γ : Type} {step : α → Except ε β} {f : α → γ} {g : β → γ}
    (hstep : ∀ x y, step x = .ok y → g y = f x) {xs : List α} {ys : List β}
    (h : xs.mapM step = .ok ys) : ys.map g = xs.map f :=
  map_eq_of_forall₂ hstep (mapM_eq_ok_iff.mp h)

/-- If every step has its result changed, the run has all results changed. -/
theorem mapM_eq_map {step changed : α → Except ε β} {change : β → β} {xs : List α}
    (h : ∀ x ∈ xs, changed x = (step x).map change) :
    xs.mapM changed = (xs.mapM step).map (List.map change) := by
  induction xs with
  | nil => rfl
  | cons x xs ih =>
    rw [List.mapM_cons, List.mapM_cons, h x List.mem_cons_self,
      ih fun y hy => h y (List.mem_cons_of_mem _ hy)]
    cases step x with
    | error e => rfl
    | ok y =>
      cases xs.mapM step with
      | error e => rfl
      | ok ys => rfl

theorem map_eq_self_iff {step : Except ε α} {change : α → α} :
    step.map change = step ↔ ∀ a, step = .ok a → change a = a := by
  cases step with
  | error e => simp [Except.map]
  | ok a => simp [Except.map]

end CommandDoc
