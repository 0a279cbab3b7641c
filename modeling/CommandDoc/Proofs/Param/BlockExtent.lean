import Mathlib.Order.WellFounded
import CommandDoc.Proofs.Param.AttributeBlock
import CommandDoc.Proofs.Text.Groups

/-!
# How far a block reaches

In a text without quotes the block that opens it is the shortest start with as many closing as opening
parentheses, and the block that closes it is the shortest such end.  Both come down to one fact about counting: a
shortest start with as many of one character as of another keeps ahead with the first until its last character.

Main definitions:

- `IsEvenFront` and `IsEvenBack`: starts and ends of a text with as many opening as closing parentheses.
- `IsShortest`: the shortest text with a property.
- `AttributeBlock.OpensEven` and `AttributeBlock.ClosesEven`: the texts with a block in front or behind.

Main results:

- Theorem `exists_inner_of_count_eq`: the inside of a shortest start with as many of two characters.
- Theorem `AttributeBlock.exists_inner_of_isShortest_front`, `AttributeBlock.exists_inner_of_isShortest_back`: a
  shortest even start or end is a text with matching parentheses in a pair of its own.
- Theorem `AttributeBlock.ofText?_shortest`: the block of a text without quotes.
-/

namespace CommandDoc

open Text

/-! ## Even starts and ends -/

/-- A start of a text that opens as many parentheses as it closes, and is not empty. -/
structure Text.IsEvenFront (cs front : List Char) : Prop where
  /-- The text starts with it. -/
  starts : front <+: cs
  /-- It is not empty. -/
  ne_nil : front ≠ []
  /-- As many parentheses are opened as are closed. -/
  count_eq : front.count '(' = front.count ')'

/-- An end of a text that opens as many parentheses as it closes, and is not empty. -/
structure Text.IsEvenBack (cs back : List Char) : Prop where
  /-- The text ends with it. -/
  ends : back <:+ cs
  /-- It is not empty. -/
  ne_nil : back ≠ []
  /-- As many parentheses are opened as are closed. -/
  count_eq : back.count '(' = back.count ')'

/-- The shortest of the texts with a property. -/
structure Text.IsShortest (p : List Char → Prop) (cs : List Char) : Prop where
  /-- It has the property. -/
  holds : p cs
  /-- No other text with the property is shorter. -/
  length_le : ∀ other, p other → cs.length ≤ other.length

theorem Text.exists_isShortest {p : List Char → Prop} (h : ∃ cs, p cs) : ∃ cs, IsShortest p cs := by
  obtain ⟨cs, hcs, hleast⟩ := (measure List.length).wf.has_min {cs | p cs} h
  exact ⟨cs, hcs, fun other hother => Nat.le_of_not_lt (hleast other hother)⟩

/-! ## The inside of a shortest start -/

section Counting

variable {o c : Char}

/-- Behind `o`, a text that never has one `c` more than it has `o` never has more of them. -/
theorem Text.count_le_count_of_forall_ne {cs : List Char}
    (h : ∀ part, part <+: cs → part.count c ≠ part.count o + 1) {part : List Char} (hpart : part <+: cs) :
    part.count c ≤ part.count o := by
  induction part using List.reverseRecOn with
  | nil => exact Nat.le_refl _
  | append_singleton part d ih =>
    have hbefore := ih ((List.prefix_append part [d]).trans hpart)
    have hnow := h _ hpart
    -- One character adds at most one `c`, and one more is what the text never has.
    have hone : [d].count c ≤ 1 := List.count_le_length
    simp only [List.count_append] at hnow ⊢
    omega

/-- A text that starts with `o` and has as many `o` as `c`, but no shorter start with as many, ends with `c`, and
between the two `c` never gets ahead. -/
theorem Text.exists_inner_of_count_eq (hne : o ≠ c) {cs : List Char} (hhead : cs.head? = some o)
    (hcount : cs.count o = cs.count c)
    (hshort : ∀ part, part <+: cs → part ≠ [] → part.count o = part.count c → cs.length ≤ part.length) :
    ∃ inner, cs = o :: (inner ++ [c]) ∧ inner.count o = inner.count c ∧
      ∀ part, part <+: inner → part.count c ≤ part.count o := by
  obtain ⟨rest, rfl⟩ := List.head?_eq_some_iff.mp hhead
  rw [List.count_cons_self, List.count_cons_of_ne hne] at hcount
  cases rest using List.reverseRecOn with
  | nil => simp at hcount
  | append_singleton inner d =>
    have hahead : ∀ part, part <+: inner → part.count c ≠ part.count o + 1 := by
      intro part hpart heven
      have hstart : o :: part <+: o :: (inner ++ [d]) :=
        List.cons_prefix_cons.mpr ⟨rfl, hpart.trans (List.prefix_append _ _)⟩
      have hlong := hshort _ hstart (List.cons_ne_nil _ _)
        (by rw [List.count_cons_self, List.count_cons_of_ne hne, heven])
      have hle := hpart.length_le
      simp only [List.length_cons, List.length_append] at hlong
      omega
    have hall := count_le_count_of_forall_ne hahead (List.prefix_refl inner)
    have hlast : d = c := by
      by_contra hd
      have hnone : [d].count c = 0 := List.count_eq_zero.mpr (by simpa using Ne.symm hd)
      rw [List.count_append, List.count_append, hnone] at hcount
      omega
    subst hlast
    refine ⟨inner, rfl, ?_, fun part hpart => count_le_count_of_forall_ne hahead hpart⟩
    have hnone : [d].count o = 0 := List.count_eq_zero.mpr (by simpa using hne)
    rw [List.count_append, List.count_append, List.count_singleton_self, hnone] at hcount
    omega

end Counting

namespace AttributeBlock

/-! ## Shortest groups -/

theorem count_parenthesize {inner : List Char} (h : IsMatched inner) :
    (parenthesize inner).count '(' = (parenthesize inner).count ')' := by
  simp [parenthesize, h.count_eq]

/-- A shortest even start that opens a parenthesis is a text with matching parentheses in a pair of its own. -/
theorem exists_inner_of_isShortest_front {cs front : List Char} (hhead : cs.head? = some '(')
    (h : IsShortest (IsEvenFront cs) front) : ∃ inner, front = parenthesize inner ∧ IsMatched inner := by
  have hfront : front.head? = some '(' := by
    obtain ⟨rest, hrest⟩ := h.holds.starts
    rw [← hhead, ← hrest, List.head?_append_of_ne_nil _ h.holds.ne_nil]
  obtain ⟨inner, hinner, hcount, hopened⟩ := exists_inner_of_count_eq (by decide) hfront h.holds.count_eq
    fun part hpart hne heven => h.length_le part ⟨hpart.trans h.holds.starts, hne, heven⟩
  exact ⟨inner, hinner, hcount, hopened⟩

/-- So is a shortest even end that closes one: read from its end, it is a shortest start. -/
theorem exists_inner_of_isShortest_back {cs back : List Char} (hlast : cs.getLast? = some ')')
    (h : IsShortest (IsEvenBack cs) back) : ∃ inner, back = parenthesize inner ∧ IsMatched inner := by
  have hback : back.reverse.head? = some ')' := by
    obtain ⟨before, hbefore⟩ := h.holds.ends
    rw [List.head?_reverse, ← hlast, ← hbefore, List.getLast?_append_of_ne_nil _ h.holds.ne_nil]
  have heven : back.reverse.count ')' = back.reverse.count '(' := by
    rw [List.count_reverse, List.count_reverse, h.holds.count_eq]
  obtain ⟨inner, hinner, hcount, hclosed⟩ := exists_inner_of_count_eq (by decide) hback heven
    fun part hpart hne hpartEven => by
      have hends : part.reverse <:+ back := by rwa [← List.reverse_prefix, List.reverse_reverse]
      have hlong := h.length_le part.reverse
        ⟨hends.trans h.holds.ends, by simpa using hne, by simpa using hpartEven.symm⟩
      simpa using hlong
  refine ⟨inner.reverse, ?_, isMatched_iff_suffix.mpr ⟨by simpa using hcount.symm, fun part hpart => ?_⟩⟩
  · rw [← List.reverse_reverse back, hinner]
    simp [parenthesize]
  · have hstart : part.reverse <+: inner := by rwa [← List.reverse_suffix, List.reverse_reverse]
    simpa using hclosed part.reverse hstart

/-! ## Groups without quotes -/

/-- Without quotes the group at the start of a text is a text with matching parentheses. -/
theorem takeGroup?_eq_some_iff_isMatched {cs inner rest : List Char} (h : '"' ∉ cs) :
    takeGroup? cs = some (inner, rest) ↔ cs = parenthesize inner ++ rest ∧ IsMatched inner := by
  rw [parenthesize_append]
  constructor
  · intro hfound
    have hcs := takeGroup?_eq_append hfound
    have hquote : '"' ∉ inner := fun hmem => h (by simp [hcs, hmem])
    rw [hcs, takeGroup?_eq_some_iff, isGroup_iff_isMatched hquote] at hfound
    exact ⟨hcs, hfound⟩
  · rintro ⟨hcs, hmatched⟩
    have hquote : '"' ∉ inner := fun hmem => h (by simp [hcs, hmem])
    rw [hcs, takeGroup?_eq_some_iff, isGroup_iff_isMatched hquote]
    exact hmatched

/-- And so is the one at its end. -/
theorem takeGroupBack?_eq_some_iff_isMatched {cs before inner : List Char} (h : '"' ∉ cs) :
    takeGroupBack? cs = some (before, inner) ↔ cs = before ++ parenthesize inner ∧ IsMatched inner := by
  rw [parenthesize]
  constructor
  · intro hfound
    have hcs := takeGroupBack?_eq_append hfound
    have hquote : '"' ∉ inner := fun hmem => h (by simp [hcs, hmem])
    rw [hcs, takeGroupBack?_eq_some_iff, isGroup_iff_isMatched hquote] at hfound
    exact ⟨hcs, hfound⟩
  · rintro ⟨hcs, hmatched⟩
    have hquote : '"' ∉ inner := fun hmem => h (by simp [hcs, hmem])
    rw [hcs, takeGroupBack?_eq_some_iff, isGroup_iff_isMatched hquote]
    exact hmatched

/-- Trimming a text keeps its parentheses matching. -/
theorem isMatched_trim {inner : List Char} (h : IsMatched inner) : IsMatched (trim inner) := by
  obtain ⟨front, back, hfront, -, hinner⟩ := exists_eq_append_trim inner
  refine ⟨?_, fun part hpart => ?_⟩
  · rw [count_trim (by decide), count_trim (by decide), h.count_eq]
  · have hstart : front ++ part <+: inner := by
      rw [hinner]
      exact List.prefix_append_right_inj front |>.mpr (hpart.trans (List.prefix_append _ _))
    have hnone : front.count '(' = 0 := List.count_eq_zero.mpr fun hmem => absurd (hfront _ hmem) (by decide)
    have hopened := h.closesOpened _ hstart
    rw [List.count_append, List.count_append, hnone] at hopened
    omega

/-! ## Blocks -/

/-- A text with a block in front: it opens a parenthesis, and some start of it is even. -/
def OpensEven (cs : List Char) : Prop :=
  cs.head? = some '(' ∧ ∃ front, IsEvenFront cs front

/-- A text with a block behind: it closes a parenthesis, and some end of it is even. -/
def ClosesEven (cs : List Char) : Prop :=
  cs.getLast? = some ')' ∧ ∃ back, IsEvenBack cs back

theorem opensEven_iff_inits {cs : List Char} :
    OpensEven cs ↔
      cs.head? = some '(' ∧ ∃ front ∈ cs.inits, front ≠ [] ∧ front.count '(' = front.count ')' := by
  refine and_congr_right fun _ => exists_congr fun front => ?_
  rw [List.mem_inits]
  exact ⟨fun h => ⟨h.starts, h.ne_nil, h.count_eq⟩, fun h => ⟨h.1, h.2.1, h.2.2⟩⟩

theorem closesEven_iff_tails {cs : List Char} :
    ClosesEven cs ↔
      cs.getLast? = some ')' ∧ ∃ back ∈ cs.tails, back ≠ [] ∧ back.count '(' = back.count ')' := by
  refine and_congr_right fun _ => exists_congr fun back => ?_
  rw [List.mem_tails]
  exact ⟨fun h => ⟨h.ends, h.ne_nil, h.count_eq⟩, fun h => ⟨h.1, h.2.1, h.2.2⟩⟩

instance : DecidablePred OpensEven := fun _ => decidable_of_iff _ opensEven_iff_inits.symm

instance : DecidablePred ClosesEven := fun _ => decidable_of_iff _ closesEven_iff_tails.symm

theorem OpensEven.exists_takeGroup?_eq {cs : List Char} (hquote : '"' ∉ cs) (h : OpensEven cs) :
    ∃ inner rest, IsShortest (IsEvenFront cs) (parenthesize inner) ∧ cs = parenthesize inner ++ rest ∧
      takeGroup? cs = some (inner, rest) := by
  obtain ⟨front, hfront⟩ := exists_isShortest h.2
  obtain ⟨inner, rfl, hmatched⟩ := exists_inner_of_isShortest_front h.1 hfront
  obtain ⟨rest, hrest⟩ := hfront.holds.starts
  exact ⟨inner, rest, hfront, hrest.symm, (takeGroup?_eq_some_iff_isMatched hquote).mpr ⟨hrest.symm, hmatched⟩⟩

theorem takeGroup?_eq_none_of_not_opensEven {cs : List Char} (hquote : '"' ∉ cs) (h : ¬ OpensEven cs) :
    takeGroup? cs = none := by
  rw [Option.eq_none_iff_forall_ne_some]
  rintro ⟨inner, rest⟩ hfound
  obtain ⟨hcs, hmatched⟩ := (takeGroup?_eq_some_iff_isMatched hquote).mp hfound
  exact h ⟨by rw [hcs]; rfl, parenthesize inner, ⟨rest, hcs.symm⟩, List.cons_ne_nil _ _,
    count_parenthesize hmatched⟩

theorem ClosesEven.exists_takeGroupBack?_eq {cs : List Char} (hquote : '"' ∉ cs) (h : ClosesEven cs) :
    ∃ before inner, IsShortest (IsEvenBack cs) (parenthesize inner) ∧ cs = before ++ parenthesize inner ∧
      takeGroupBack? cs = some (before, inner) := by
  obtain ⟨back, hback⟩ := exists_isShortest h.2
  obtain ⟨inner, rfl, hmatched⟩ := exists_inner_of_isShortest_back h.1 hback
  obtain ⟨before, hbefore⟩ := hback.holds.ends
  exact ⟨before, inner, hback, hbefore.symm,
    (takeGroupBack?_eq_some_iff_isMatched hquote).mpr ⟨hbefore.symm, hmatched⟩⟩

theorem takeGroupBack?_eq_none_of_not_closesEven {cs : List Char} (hquote : '"' ∉ cs) (h : ¬ ClosesEven cs) :
    takeGroupBack? cs = none := by
  rw [Option.eq_none_iff_forall_ne_some]
  rintro ⟨before, inner⟩ hfound
  obtain ⟨hcs, hmatched⟩ := (takeGroupBack?_eq_some_iff_isMatched hquote).mp hfound
  have hne : parenthesize inner ≠ [] := List.cons_ne_nil _ _
  have hlast : (before ++ parenthesize inner).getLast? = some ')' := by
    rw [List.getLast?_append_of_ne_nil _ hne, parenthesize, ← List.cons_append, List.getLast?_concat]
  exact h ⟨by rw [hcs, hlast], parenthesize inner, ⟨before, hcs.symm⟩, hne, count_parenthesize hmatched⟩

/-- The inside of every block of a text without quotes has matching parentheses. -/
theorem isMatched_content {cs : List Char} (hquote : '"' ∉ cs) {block : AttributeBlock}
    (h : block ∈ ofText? cs) : IsMatched block.content := by
  have htrim : '"' ∉ trim cs := fun hmem => hquote ((trim_sublist cs).mem hmem)
  rw [Option.mem_def, ofText?, Option.or_eq_some_iff] at h
  rcases h with hleading | ⟨-, htrailing⟩
  · obtain ⟨⟨inner, rest⟩, hfound, rfl⟩ := Option.map_eq_some_iff.mp hleading
    exact isMatched_trim ((takeGroup?_eq_some_iff_isMatched htrim).mp hfound).2
  · obtain ⟨⟨before, inner⟩, hfound, rfl⟩ := Option.map_eq_some_iff.mp htrailing
    exact isMatched_trim ((takeGroupBack?_eq_some_iff_isMatched htrim).mp hfound).2

/-- In a text without quotes the block in front is the shortest even start of the trimmed text, and if it has
none, the block behind is the shortest even end.  Without either there is no block, and the parentheses inside
a block match. -/
theorem ofText?_shortest {cs : List Char} (h : '"' ∉ cs) :
    (OpensEven (trim cs) →
        ∃ inner rest, IsShortest (IsEvenFront (trim cs)) (parenthesize inner) ∧
          trim cs = parenthesize inner ++ rest ∧ ofText? cs = some ⟨trim inner, collapse rest⟩) ∧
      (¬ OpensEven (trim cs) → ClosesEven (trim cs) →
        ∃ before inner, IsShortest (IsEvenBack (trim cs)) (parenthesize inner) ∧
          trim cs = before ++ parenthesize inner ∧ ofText? cs = some ⟨trim inner, collapse before⟩) ∧
      (¬ OpensEven (trim cs) → ¬ ClosesEven (trim cs) → ofText? cs = none) ∧
      ∀ block ∈ ofText? cs, IsMatched block.content := by
  have htrim : '"' ∉ trim cs := fun hmem => h ((trim_sublist cs).mem hmem)
  refine ⟨fun hopens => ?_, fun hopens hcloses => ?_, fun hopens hcloses => ?_, fun block => isMatched_content h⟩
  · obtain ⟨inner, rest, hshortest, hcut, hfound⟩ := hopens.exists_takeGroup?_eq htrim
    refine ⟨inner, rest, hshortest, hcut, ?_⟩
    rw [ofText?, leading?, hfound, Option.map_some, Option.some_or]
  · obtain ⟨before, inner, hshortest, hcut, hfound⟩ := hcloses.exists_takeGroupBack?_eq htrim
    refine ⟨before, inner, hshortest, hcut, ?_⟩
    rw [ofText?, leading?, takeGroup?_eq_none_of_not_opensEven htrim hopens, Option.map_none, Option.none_or,
      trailing?, hfound, Option.map_some]
  · rw [ofText?, leading?, takeGroup?_eq_none_of_not_opensEven htrim hopens, Option.map_none, Option.none_or,
      trailing?, takeGroupBack?_eq_none_of_not_closesEven htrim hcloses, Option.map_none]

/-- Behind a parenthesis that nothing closes, the block at the end is found. -/
theorem ofText?_shortest_behindUnclosed :
    let cs := "(x (y) ( z (q) )".toList
    '"' ∉ cs ∧ ¬ OpensEven (trim cs) ∧ ClosesEven (trim cs) ∧
      (∃ before inner, IsShortest (IsEvenBack (trim cs)) (parenthesize inner) ∧
        trim cs = before ++ parenthesize inner ∧ ofText? cs = some ⟨trim inner, collapse before⟩) ∧
      IsMatched "z (q)".toList := by
  have hquote : '"' ∉ "(x (y) ( z (q) )".toList := by decide
  have hopens : ¬ OpensEven (trim "(x (y) ( z (q) )".toList) := by decide
  have hcloses : ClosesEven (trim "(x (y) ( z (q) )".toList) := by decide
  obtain ⟨-, hback, -, hcontent⟩ := ofText?_shortest hquote
  exact ⟨hquote, hopens, hcloses, hback hopens hcloses, hcontent ⟨_, "(x (y)".toList⟩ (by decide)⟩

end AttributeBlock

end CommandDoc
