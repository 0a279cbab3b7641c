import CommandDoc.Comment.Directive

/-!
# Reading a comment line by line

A line that ends a flags block is looked at twice: it is left where it is, and the next step reads it as a line of
the body.  So the steps through a comment read what a recursion reads that takes each line at once, and there are
at most two of them for each line.

Main definitions:

- `readLines`: every line of a comment with its form, by recursion on the lines.

Main results:

- Theorem `Scan.bound_step?`: a step leaves fewer of them.
- Theorem `Scan.read_step?`: a step does not change what is read in the end.
- Theorems `Scan.run_eq` and `commentLines_eq`: reading ends with every line read once, in order.
-/

namespace CommandDoc

open Text

/-- Read the lines of a part of a comment and what follows it. -/
def readLines (part : Section) : List (List Char) → List CommentLine
  | [] => []
  | text :: texts => (readLine part text).1 :: readLines (readLine part text).2 texts

/-- Reading a line keeps its text. -/
theorem map_text_readLines (part : Section) (texts : List (List Char)) :
    (readLines part texts).map (·.text) = texts := by
  have htext : ∀ part text, (readLine part text).1.text = text := by
    intro part text
    unfold readLine
    split
    · split
      · rfl
      · split
        · rfl
        · rfl
    · rfl
  induction texts generalizing part with
  | nil => rfl
  | cons text texts ih => rw [readLines, List.map_cons, htext, ih]

/-! ## Steps -/

namespace Scan

/-- A line that ends a flags block is read as one of the body. -/
theorem readLine_of_endsFlags {scan : Scan} {text : List Char} (h : scan.endsFlags text = true) :
    readLine scan.part text = readLine .body text := by
  simp only [endsFlags, Bool.and_eq_true, beq_iff_eq, Bool.not_eq_eq_eq_not, Bool.not_true] at h
  rw [h.1.1, readLine, readLine, if_neg (by simp [h.1.2]), if_neg (by simp [h.2])]
  simp

theorem step?_eq_none_iff {scan : Scan} : scan.step? = none ↔ scan.left = [] := by
  rw [step?]
  cases scan.left with
  | nil => simp
  | cons text texts => simp

/-- Each step leaves fewer of them. -/
theorem bound_step? {scan next : Scan} (h : scan.step? = some next) : next.bound < scan.bound := by
  rw [step?] at h
  cases hleft : scan.left with
  | nil => simp [hleft] at h
  | cons text texts =>
    rw [hleft, Option.some.injEq] at h
    rw [← h]
    by_cases hends : scan.endsFlags text = true
    · have hpart : scan.part = .flags := by
        simp only [endsFlags, Bool.and_eq_true, beq_iff_eq] at hends
        exact hends.1.1
      simp [hends, bound, hleft, hpart]
    · simp only [hends, Bool.false_eq_true, if_false, bound, take, hleft, List.length_cons]
      split
      · omega
      · omega

/-- A step does not change what is read in the end. -/
theorem read_step? {scan next : Scan} (h : scan.step? = some next) :
    next.read ++ readLines next.part next.left = scan.read ++ readLines scan.part scan.left := by
  rw [step?] at h
  cases hleft : scan.left with
  | nil => simp [hleft] at h
  | cons text texts =>
    rw [hleft, Option.some.injEq] at h
    rw [← h]
    by_cases hends : scan.endsFlags text = true
    · simp only [hends, if_true, readLines, readLine_of_endsFlags hends]
    · simp [hends, take, readLines]

/-- With enough steps every line is read, once and in order. -/
theorem run_eq {scan : Scan} {n : Nat} (h : scan.bound ≤ n) :
    (run n scan).step? = none ∧ (run n scan).read = scan.read ++ readLines scan.part scan.left := by
  induction n generalizing scan with
  | zero =>
    have hleft : scan.left = [] := by
      rw [bound] at h
      exact List.length_eq_zero_iff.mp (by omega)
    rw [run, step?_eq_none_iff, hleft, readLines, List.append_nil]
    exact ⟨rfl, rfl⟩
  | succ n ih =>
    rw [run]
    cases hstep : scan.step? with
    | none =>
      have hleft := step?_eq_none_iff.mp hstep
      rw [Option.map_none, Option.getD_none, hleft, readLines, List.append_nil]
      exact ⟨hstep, rfl⟩
    | some next =>
      have hless := bound_step? hstep
      rw [Option.map_some, Option.getD_some, ← read_step? hstep]
      exact ih (by omega)

end Scan

/-- The steps through a comment read each of its lines once. -/
theorem commentLines_eq (doc : String) :
    commentLines doc = readLines .opening (Comment.readableLines doc.toList) := by
  rw [commentLines, (Scan.run_eq (Nat.le_refl _)).2, List.nil_append]

end CommandDoc
