import Mathlib.Data.List.Infix
import CommandDoc.Proofs.Text.Nesting

/-!
# Which texts are read as groups

The inside of a group is found from its opening parenthesis or from its closing one.  In both directions it
is found exactly if its parentheses outside quotes match, but the two directions do not agree on the quotes:
forwards a backslash escapes only inside quotes and only if it is not escaped itself, and backwards every
backslash does.

Main definitions:

- `IsMatched`: matching parentheses, by counting.
- `EscapeRule`, `QuoteWalk` and `walkQuotes`: what stands outside quotes.
- `IsGroup`: the parentheses outside quotes match.

Main results:

- Theorem `takeGroup?_eq_some_iff`: which groups are found from the front.
- Theorem `takeGroupBack?_eq_some_iff`: which groups are found from the end.
- Theorem `isGroup_inside_iff_anywhere`: where no quote stands right behind a backslash, these are the same.
-/

namespace CommandDoc.Text

/-! ## Matching parentheses -/

/-- No start of a text closes more parentheses than it opens. -/
def ClosesOpened (cs : List Char) : Prop :=
  ∀ front, front <+: cs → front.count ')' ≤ front.count '('

/-- The parentheses of a text match: all of them are closed, and none before it is opened. -/
structure IsMatched (cs : List Char) : Prop where
  /-- As many are opened as are closed. -/
  count_eq : cs.count '(' = cs.count ')'
  /-- None is closed before it is opened. -/
  closesOpened : ClosesOpened cs

/-- The starts of a text are listed, so the condition can be decided. -/
theorem closesOpened_iff_inits {cs : List Char} :
    ClosesOpened cs ↔ ∀ front ∈ cs.inits, front.count ')' ≤ front.count '(' := by
  simp only [ClosesOpened, List.mem_inits]

instance : DecidablePred ClosesOpened := fun _ => decidable_of_iff _ closesOpened_iff_inits.symm

/-- The two conditions can be decided one after the other. -/
theorem isMatched_iff {cs : List Char} :
    IsMatched cs ↔ cs.count '(' = cs.count ')' ∧ ClosesOpened cs :=
  ⟨fun h => ⟨h.count_eq, h.closesOpened⟩, fun h => ⟨h.1, h.2⟩⟩

instance : DecidablePred IsMatched := fun _ => decidable_of_iff _ isMatched_iff.symm

/-- With one more character this holds if it held before and the whole text closes no more than it opens. -/
theorem closesOpened_concat {cs : List Char} {c : Char} :
    ClosesOpened (cs ++ [c]) ↔ ClosesOpened cs ∧ (cs ++ [c]).count ')' ≤ (cs ++ [c]).count '(' := by
  simp only [ClosesOpened, List.prefix_concat_iff]
  constructor
  · intro h
    exact ⟨fun front hfront => h front (Or.inr hfront), h _ (Or.inl rfl)⟩
  · rintro ⟨hfront, hall⟩ front (rfl | h)
    · exact hall
    · exact hfront front h

/-- Matching parentheses seen from the end: no end of the text opens more than it closes. -/
theorem isMatched_iff_suffix {cs : List Char} :
    IsMatched cs ↔ cs.count '(' = cs.count ')' ∧ ∀ back, back <:+ cs → back.count '(' ≤ back.count ')' := by
  constructor
  · intro h
    refine ⟨h.count_eq, ?_⟩
    rintro back ⟨front, rfl⟩
    have hfront := h.closesOpened front (List.prefix_append _ _)
    have hall := h.count_eq
    simp only [List.count_append] at hall
    omega
  · rintro ⟨hall, hback⟩
    refine ⟨hall, ?_⟩
    rintro front ⟨back, rfl⟩
    have hends := hback back (List.suffix_append _ _)
    simp only [List.count_append] at hall
    omega

/-! ## Quotes -/

/-- Which backslashes escape the character behind them. -/
inductive EscapeRule where
  /-- Those inside quotes that are not escaped themselves. -/
  | inside
  /-- All of them. -/
  | anywhere

/-- Whether a character escapes the next one. -/
def EscapeRule.escapes (rule : EscapeRule) (quoted escaped : Bool) (c : Char) : Bool :=
  match rule with
  | inside => quoted && !escaped && c == '\\'
  | anywhere => c == '\\'

/-- Where a walk over a text stands, and what it met outside quotes. -/
structure QuoteWalk where
  /-- Whether a quote is open. -/
  quoted : Bool := false
  /-- Whether the next character is escaped. -/
  escaped : Bool := false
  /-- What stands outside quotes so far. -/
  outside : List Char := []

namespace QuoteWalk

/-- One more character: a quote that is not escaped opens or closes. -/
def next (rule : EscapeRule) (walk : QuoteWalk) (c : Char) : QuoteWalk :=
  if c = '"' ∧ walk.escaped = false then { walk with quoted := !walk.quoted }
  else
    { quoted := walk.quoted
      escaped := rule.escapes walk.quoted walk.escaped c
      outside := if walk.quoted then walk.outside else walk.outside ++ [c] }

/-- A quote that is not escaped switches between the inside and the outside of quotes. -/
theorem next_quote (rule : EscapeRule) {walk : QuoteWalk} (h : walk.escaped = false) :
    walk.next rule '"' = { walk with quoted := !walk.quoted } := by
  simp [next, h]

/-- Any other character stays on its side. -/
theorem next_of_not_quote {rule : EscapeRule} {walk : QuoteWalk} {c : Char}
    (h : ¬(c = '"' ∧ walk.escaped = false)) :
    walk.next rule c
      = { quoted := walk.quoted
          escaped := rule.escapes walk.quoted walk.escaped c
          outside := if walk.quoted then walk.outside else walk.outside ++ [c] } :=
  if_neg h

/-- What one more character adds outside quotes. -/
def shown (walk : QuoteWalk) (c : Char) : List Char :=
  if walk.quoted ∨ c = '"' ∧ walk.escaped = false then [] else [c]

/-- One step adds to the text outside quotes what it shows there. -/
theorem outside_next (rule : EscapeRule) (walk : QuoteWalk) (c : Char) :
    (walk.next rule c).outside = walk.outside ++ walk.shown c := by
  by_cases hquote : c = '"' ∧ walk.escaped = false
  · simp [next, shown, hquote]
  · rw [next_of_not_quote hquote, shown]
    by_cases hquoted : walk.quoted = true
    · simp [hquoted]
    · simp [hquoted, hquote]

/-- One step of a walk adds at most one character to the text outside quotes, so the same condition decides. -/
theorem closesOpened_append_shown {walk : QuoteWalk} {cs : List Char} {c : Char} :
    ClosesOpened (cs ++ walk.shown c) ↔
      ClosesOpened cs ∧ (cs ++ walk.shown c).count ')' ≤ (cs ++ walk.shown c).count '(' := by
  unfold shown
  split
  · rw [List.append_nil]
    exact ⟨fun h => ⟨h, h cs (List.prefix_refl _)⟩, And.left⟩
  · exact closesOpened_concat

end QuoteWalk

/-- The walk over a whole text. -/
def walkQuotes (rule : EscapeRule) (cs : List Char) : QuoteWalk :=
  cs.foldl (QuoteWalk.next rule) {}

/-- Nothing is walked at the start. -/
@[simp]
theorem walkQuotes_nil (rule : EscapeRule) : walkQuotes rule [] = {} :=
  rfl

/-- Walking one more character is one step. -/
@[simp]
theorem walkQuotes_concat (rule : EscapeRule) (cs : List Char) (c : Char) :
    walkQuotes rule (cs ++ [c]) = (walkQuotes rule cs).next rule c := by
  simp [walkQuotes]

/-- The text of a group: no quote is open at its end, and its parentheses outside quotes match. -/
structure IsGroup (rule : EscapeRule) (cs : List Char) : Prop where
  /-- No quote is open at the end. -/
  closed : (walkQuotes rule cs).quoted = false
  /-- The parentheses outside quotes match. -/
  matched : IsMatched (walkQuotes rule cs).outside

/-- A group leaves no quote open, and its brackets outside quotes match. -/
theorem isGroup_iff {rule : EscapeRule} {cs : List Char} :
    IsGroup rule cs ↔ (walkQuotes rule cs).quoted = false ∧ IsMatched (walkQuotes rule cs).outside :=
  ⟨fun h => ⟨h.closed, h.matched⟩, fun h => ⟨h.1, h.2⟩⟩

instance (rule : EscapeRule) : DecidablePred (IsGroup rule) := fun _ => decidable_of_iff _ isGroup_iff.symm

/-- Without quotes all of a text stands outside of them. -/
theorem walkQuotes_of_not_mem (rule : EscapeRule) {cs : List Char} (h : '"' ∉ cs) :
    (walkQuotes rule cs).quoted = false ∧ (walkQuotes rule cs).outside = cs := by
  induction cs using List.reverseRecOn with
  | nil => exact ⟨rfl, rfl⟩
  | append_singleton cs c ih =>
    rw [List.mem_append, not_or] at h
    obtain ⟨hquoted, houtside⟩ := ih h.1
    have hc : c ≠ '"' := fun hc => h.2 (by rw [hc]; exact List.mem_singleton_self _)
    rw [walkQuotes_concat, QuoteWalk.next_of_not_quote (by simp [hc])]
    simp [hquoted, houtside]

/-- Without quotes a group is a text with matching parentheses. -/
theorem isGroup_iff_isMatched {rule : EscapeRule} {cs : List Char} (h : '"' ∉ cs) :
    IsGroup rule cs ↔ IsMatched cs := by
  obtain ⟨hquoted, houtside⟩ := walkQuotes_of_not_mem rule h
  rw [isGroup_iff, hquoted, houtside]
  exact and_iff_right rfl

/-- Only behind a backslash a character is escaped. -/
theorem getLast?_of_escaped {rule : EscapeRule} {cs : List Char} (h : (walkQuotes rule cs).escaped = true) :
    cs.getLast? = some '\\' := by
  induction cs using List.reverseRecOn with
  | nil => simp at h
  | append_singleton cs c _ =>
    rw [walkQuotes_concat] at h
    by_cases hquote : c = '"' ∧ (walkQuotes rule cs).escaped = false
    · simp [QuoteWalk.next, hquote] at h
    · rw [QuoteWalk.next_of_not_quote hquote] at h
      cases rule with
      | inside => simp_all [EscapeRule.escapes]
      | anywhere => simp_all [EscapeRule.escapes]

/-- If every backslash escapes, a character is escaped exactly if it stands behind one. -/
theorem escaped_anywhere_iff {cs : List Char} :
    (walkQuotes .anywhere cs).escaped = true ↔ cs.getLast? = some '\\' := by
  refine ⟨getLast?_of_escaped, fun h => ?_⟩
  rcases List.getLast?_eq_some_iff.mp h with ⟨front, rfl⟩
  rw [walkQuotes_concat, QuoteWalk.next_of_not_quote (by simp)]
  rfl

/-- Inside quotes only, nothing is escaped outside of them. -/
theorem escaped_inside_eq_false {cs : List Char} (h : (walkQuotes .inside cs).quoted = false) :
    (walkQuotes .inside cs).escaped = false := by
  induction cs using List.reverseRecOn with
  | nil => rfl
  | append_singleton cs c _ =>
    rw [walkQuotes_concat] at h ⊢
    by_cases hquote : c = '"' ∧ (walkQuotes .inside cs).escaped = false
    · simp [QuoteWalk.next, hquote]
    · rw [QuoteWalk.next_of_not_quote hquote] at h ⊢
      simp_all [EscapeRule.escapes]

/-- Where no quote stands right behind a backslash, both rules find the same quotes. -/
theorem walkQuotes_inside_eq_anywhere {cs : List Char} (h : ¬ ['\\', '"'] <:+: cs) :
    (walkQuotes .inside cs).quoted = (walkQuotes .anywhere cs).quoted ∧
      (walkQuotes .inside cs).outside = (walkQuotes .anywhere cs).outside := by
  induction cs using List.reverseRecOn with
  | nil => simp
  | append_singleton cs c ih =>
    rcases ih fun hwithin => h (hwithin.trans (List.prefix_append _ _).isInfix) with ⟨hquoted, houtside⟩
    rw [walkQuotes_concat, walkQuotes_concat]
    by_cases hc : c = '"'
    · subst hc
      have hfree : ∀ rule, (walkQuotes rule cs).escaped = false := by
        intro rule
        rw [← Bool.not_eq_true]
        intro hescaped
        rcases List.getLast?_eq_some_iff.mp (getLast?_of_escaped hescaped) with ⟨front, rfl⟩
        exact h ⟨front, [], by simp⟩
      simp [QuoteWalk.next_quote, hfree, hquoted, houtside]
    · rw [QuoteWalk.next_of_not_quote (by simp [hc]), QuoteWalk.next_of_not_quote (by simp [hc])]
      simp [hquoted, houtside]

/-- Where no quote stands right behind a backslash, both rules find the same groups. -/
theorem isGroup_inside_iff_anywhere {cs : List Char} (h : ¬ ['\\', '"'] <:+: cs) :
    IsGroup .inside cs ↔ IsGroup .anywhere cs := by
  rcases walkQuotes_inside_eq_anywhere h with ⟨hquoted, houtside⟩
  constructor
  · intro hgroup
    exact ⟨hquoted ▸ hgroup.closed, houtside ▸ hgroup.matched⟩
  · intro hgroup
    exact ⟨hquoted ▸ hgroup.closed, houtside ▸ hgroup.matched⟩

/-! ## From the front -/

/-- Whether a parenthesis closes the outermost group. -/
def closesGroup (state : Nesting) (c : Char) : Bool :=
  state == .plain 1 && c == ')'

/-- A text is read up to a parenthesis exactly if it is the first that closes the group. -/
theorem takeGroupFrom?_eq_some_iff {state : Nesting} {cs rest : List Char} :
    takeGroupFrom? state (cs ++ ')' :: rest) = some (cs, rest) ↔
      Passes closesGroup state cs ∧ state.after cs = .plain 1 := by
  induction cs generalizing state with
  | nil =>
    rw [List.nil_append, takeGroupFrom?]
    by_cases hstate : state = .plain 1
    · simp [hstate, Passes, Nesting.after]
    · simp [hstate, Passes, Nesting.after]
  | cons c cs ih =>
    rw [List.cons_append, takeGroupFrom?, Passes, Nesting.after, List.foldl_cons, ← Nesting.after]
    by_cases hstop : closesGroup state c = true
    · simp [hstop, show (state == .plain 1 && c == ')') = true from hstop]
    · have hpass : (state == .plain 1 && c == ')') = false := by simpa [closesGroup] using hstop
      simp [hpass, hstop, ← ih]

/-- What is read is what stands between two parentheses. -/
theorem takeGroupFrom?_eq_append {state : Nesting} {cs inner rest : List Char}
    (h : takeGroupFrom? state cs = some (inner, rest)) : cs = inner ++ ')' :: rest := by
  induction cs generalizing state inner with
  | nil => simp [takeGroupFrom?] at h
  | cons c cs ih =>
    rw [takeGroupFrom?] at h
    by_cases hstop : (state == .plain 1 && c == ')') = true
    · rw [if_pos hstop] at h
      simp only [Bool.and_eq_true, beq_iff_eq] at hstop
      simp_all
    · rw [if_neg hstop, Option.map_eq_some_iff] at h
      rcases h with ⟨found, hfound, hpair⟩
      rw [Prod.mk.injEq] at hpair
      have hrest : takeGroupFrom? (state.next c) cs = some (found.1, rest) := by rw [hfound, ← hpair.2]
      rw [ih hrest, ← hpair.1, List.cons_append]

/-- A group at the front is an open parenthesis, what is inside, a closed one and the rest. -/
theorem takeGroup?_eq_append {cs inner rest : List Char} (h : takeGroup? cs = some (inner, rest)) :
    cs = '(' :: (inner ++ ')' :: rest) := by
  unfold takeGroup? at h
  split at h
  · rw [takeGroupFrom?_eq_append h]
  · simp at h

/-- Where a walk over nested text stands, given the quotes and the depth. -/
def QuoteWalk.nesting (walk : QuoteWalk) (depth : Nat) : Nesting :=
  if walk.quoted then if walk.escaped then .escaped depth else .quoted depth else .plain depth

/-- The depth of a walk over nested text changes with the parentheses outside quotes. -/
theorem QuoteWalk.next_nesting {walk : QuoteWalk} (hfree : walk.quoted = false → walk.escaped = false)
    (depth : Nat) (c : Char) :
    (walk.nesting depth).next c
      = (walk.next .inside c).nesting (depth + (walk.shown c).count '(' - (walk.shown c).count ')') := by
  cases hquoted : walk.quoted with
  | true =>
    cases hescaped : walk.escaped with
    | true => simp [nesting, next, shown, Nesting.next, EscapeRule.escapes, hquoted, hescaped]
    | false =>
      by_cases hquote : c = '"'
      · simp [nesting, next, shown, Nesting.next, hquoted, hescaped, hquote]
      · by_cases hslash : c = '\\'
        · simp [nesting, next, shown, Nesting.next, EscapeRule.escapes, hquoted, hescaped, hslash]
        · simp [nesting, next, shown, Nesting.next, EscapeRule.escapes, hquoted, hescaped, hquote, hslash]
  | false =>
    have hescaped := hfree hquoted
    by_cases hquote : c = '"'
    · simp [nesting, next, shown, Nesting.next, hquoted, hescaped, hquote]
    · by_cases hopen : c = '('
      · simp [nesting, next, shown, Nesting.next, hquoted, hopen]
      · by_cases hclose : c = ')'
        · simp [nesting, next, shown, Nesting.next, hquoted, hclose]
        · simp [nesting, next, shown, Nesting.next, hquoted, hquote, hopen, hclose]

/-- One more character does not close the outermost group exactly if it closes no more than is open. -/
theorem QuoteWalk.passes_nesting {walk : QuoteWalk} (hfree : walk.quoted = false → walk.escaped = false)
    (hcount : walk.outside.count ')' ≤ walk.outside.count '(') (c : Char) :
    Passes closesGroup (walk.nesting (1 + walk.outside.count '(' - walk.outside.count ')')) [c] ↔
      (walk.outside ++ walk.shown c).count ')' ≤ (walk.outside ++ walk.shown c).count '(' := by
  rw [Passes, Passes, and_true]
  cases hquoted : walk.quoted with
  | true =>
    have hquotes : (walk.nesting
        (1 + walk.outside.count '(' - walk.outside.count ')') == Nesting.plain 1) = false := by
      simp [nesting, hquoted, apply_ite (· == Nesting.plain 1)]
    simp [closesGroup, hquotes, shown, hquoted, hcount]
  | false =>
    have hescaped := hfree hquoted
    by_cases hquote : c = '"'
    · simp [closesGroup, nesting, shown, hquoted, hescaped, hquote, hcount]
    · by_cases hclose : c = ')'
      · simp [closesGroup, nesting, shown, hquoted, hclose, List.count_append]
        omega
      · simp [closesGroup, nesting, shown, hquoted, hquote, hclose, List.count_append]
        omega

/-- A walk over nested text stays in its group as long as what stands outside quotes closes only what it
opens; its depth is the number of parentheses left open. -/
theorem passes_closesGroup (cs : List Char) :
    (Passes closesGroup (.plain 1) cs ↔ ClosesOpened (walkQuotes .inside cs).outside) ∧
      (Passes closesGroup (.plain 1) cs →
        (Nesting.plain 1).after cs = (walkQuotes .inside cs).nesting
          (1 + (walkQuotes .inside cs).outside.count '(' - (walkQuotes .inside cs).outside.count ')')) := by
  induction cs using List.reverseRecOn with
  | nil => simp [Passes, Nesting.after, QuoteWalk.nesting, ClosesOpened]
  | append_singleton cs c ih =>
    rcases ih with ⟨hpasses, hafter⟩
    rw [walkQuotes_concat, passes_append, QuoteWalk.outside_next, hpasses, Nesting.after_append,
      QuoteWalk.closesOpened_append_shown]
    rw [hpasses] at hafter
    have hfree := @escaped_inside_eq_false cs
    generalize walkQuotes .inside cs = walk at hafter hfree ⊢
    have hstop : ClosesOpened walk.outside →
        (Passes closesGroup ((Nesting.plain 1).after cs) [c] ↔
          (walk.outside ++ walk.shown c).count ')' ≤ (walk.outside ++ walk.shown c).count '(') := by
      intro hopened
      rw [hafter hopened, QuoteWalk.passes_nesting hfree (hopened walk.outside (List.prefix_refl _))]
    constructor
    · exact and_congr_right hstop
    · rintro ⟨hopened, hlast⟩
      have hcount := hopened walk.outside (List.prefix_refl _)
      have hmore := (hstop hopened).mp hlast
      rw [hafter hopened, Nesting.after, List.foldl_cons, List.foldl_nil, QuoteWalk.next_nesting hfree]
      simp only [List.count_append] at hmore ⊢
      congr 1
      omega

/-- A group is found from its opening parenthesis exactly if its parentheses match outside quotes in which a
backslash escapes. -/
theorem takeGroup?_eq_some_iff {cs rest : List Char} :
    takeGroup? ('(' :: (cs ++ ')' :: rest)) = some (cs, rest) ↔ IsGroup .inside cs := by
  rcases passes_closesGroup cs with ⟨hpasses, hafter⟩
  rw [takeGroup?, takeGroupFrom?_eq_some_iff, hpasses]
  have hplain : ∀ walk : QuoteWalk, ∀ depth,
      walk.nesting depth = .plain 1 ↔ walk.quoted = false ∧ depth = 1 := by
    intro walk depth
    cases hquoted : walk.quoted with
    | true => simp [QuoteWalk.nesting, hquoted, ite_eq_iff]
    | false => simp [QuoteWalk.nesting, hquoted]
  constructor
  · rintro ⟨hopened, hend⟩
    rw [hafter (hpasses.mpr hopened), hplain] at hend
    have hcount := hopened _ (List.prefix_refl _)
    exact ⟨hend.1, by omega, hopened⟩
  · rintro ⟨hclosed, hcount, hopened⟩
    rw [hafter (hpasses.mpr hopened), hplain]
    exact ⟨hopened, hclosed, by omega⟩

/-! ## From the end -/

/-- No end of a text opens more than `depth` parentheses beyond those it closes. -/
def OpensClosed (depth : Nat) (cs : List Char) : Prop :=
  ∀ back, back <:+ cs → back.count '(' ≤ back.count ')' + depth

/-- One more character at the end is counted in every back of the text. -/
theorem opensClosed_concat {depth : Nat} {cs : List Char} {c : Char} :
    OpensClosed depth (cs ++ [c]) ↔
      ∀ back, back <:+ cs → (back ++ [c]).count '(' ≤ (back ++ [c]).count ')' + depth := by
  constructor
  · rintro h back ⟨front, rfl⟩
    exact h _ ⟨front, by simp⟩
  · rintro h back ⟨front, hfront⟩
    cases back using List.reverseRecOn with
    | nil => simp
    | append_singleton back d =>
      rw [← List.append_assoc] at hfront
      rcases List.append_inj' hfront rfl with ⟨hcs, hd⟩
      cases hd
      exact h back ⟨front, hcs⟩

/-- In front of a last character as many parentheses are left open as behind it, apart from that character. -/
theorem opensClosed_concat_shown {depth : Nat} {cs : List Char} {c : Char} (h : ¬(c = '(' ∧ depth = 0)) :
    OpensClosed depth (cs ++ [c]) ↔ OpensClosed (depth + [c].count ')' - [c].count '(') cs := by
  rw [opensClosed_concat, OpensClosed]
  refine forall₂_congr fun back _ => ?_
  by_cases hopen : c = '('
  · simp [List.count_append, hopen] at h ⊢
    omega
  · simp [List.count_append, hopen]
    omega

/-- A text that ends with an open parenthesis does not close it. -/
theorem not_opensClosed_concat_open {cs : List Char} : ¬ OpensClosed 0 (cs ++ ['(']) := by
  intro h
  have hone := h ['('] (List.suffix_append _ _)
  simp at hone

/-- Read from its end, a text starts behind a backslash exactly if it ends with one. -/
theorem head?_reverse_append_eq_backslash {cs rest : List Char} :
    (cs.reverse ++ '(' :: rest).head? = some '\\' ↔ cs.getLast? = some '\\' := by
  cases cs using List.reverseRecOn with
  | nil => simp
  | append_singleton cs c => simp

/-- A character in front of what is found is found with it. -/
theorem map_prepend_eq_some_iff {found : Option (List Char × List Char)} {c : Char} {inner rest : List Char} :
    found.map (prepend [c]) = some (c :: inner, rest) ↔ found = some (inner, rest) := by
  cases found with
  | none => simp
  | some pair => simp [prepend, Prod.ext_iff]

/-- Outside quotes a character is taken into the group, unless it opens the group. -/
theorem takeGroupBackFrom?_shown {c : Char} {cs : List Char} {depth : Nat}
    (hquote : c ≠ '"' ∨ cs.head? = some '\\') (h : ¬(c = '(' ∧ depth = 0)) :
    takeGroupBackFrom? false (depth + 1) (c :: cs)
      = (takeGroupBackFrom? false (depth + [c].count ')' - [c].count '(' + 1) cs).map (prepend [c]) := by
  have hescaped : ¬(c == '"' && cs.head? != some '\\') = true := by
    rcases hquote with hc | hhead
    · simp [hc]
    · simp [hhead]
  have hdepth : (if c == ')' then depth + 1 + 1 else if c == '(' then depth + 1 - 1 else depth + 1)
      = depth + [c].count ')' - [c].count '(' + 1 := by
    by_cases hopen : c = '('
    · simp [hopen] at h ⊢
      omega
    · by_cases hclose : c = ')'
      · simp [hclose]
      · simp [hopen, hclose]
  rw [takeGroupBackFrom?, if_neg hescaped, if_neg (by simpa using h)]
  simp only [Bool.false_eq_true, if_false, hdepth]
  rfl

/-- Backwards a text is read up to a parenthesis exactly if the quotes are those of the walk forwards, and the
parenthesis is the first that opens the group. -/
theorem takeGroupBackFrom?_eq_some_iff {cs rest : List Char} {quoted : Bool} {depth : Nat} :
    takeGroupBackFrom? quoted (depth + 1) (cs.reverse ++ '(' :: rest) = some (cs.reverse, rest) ↔
      (walkQuotes .anywhere cs).quoted = quoted ∧
        (walkQuotes .anywhere cs).outside.count '(' = (walkQuotes .anywhere cs).outside.count ')' + depth ∧
          OpensClosed depth (walkQuotes .anywhere cs).outside := by
  induction cs using List.reverseRecOn generalizing quoted depth with
  | nil =>
    cases quoted with
    | true =>
      have hquoted : takeGroupBackFrom? true (depth + 1) ('(' :: rest)
          = (takeGroupBackFrom? true (depth + 1) rest).map (prepend ['(']) :=
        takeGroupBackFrom?_quoted (Or.inl (by decide)) _
      simp [hquoted, prepend]
    | false =>
      cases depth with
      | zero => simp [takeGroupBackFrom?, OpensClosed]
      | succ depth => simp [takeGroupBackFrom?]
  | append_singleton cs c ih =>
    have hescaped : (walkQuotes .anywhere cs).escaped = true ↔
        (cs.reverse ++ '(' :: rest).head? = some '\\' := by
      rw [escaped_anywhere_iff, head?_reverse_append_eq_backslash]
    rw [List.reverse_append, List.reverse_singleton, List.singleton_append, List.cons_append,
      walkQuotes_concat]
    by_cases hquote : c = '"' ∧ (walkQuotes .anywhere cs).escaped = false
    · have hhead : (cs.reverse ++ '(' :: rest).head? ≠ some '\\' := by
        rw [ne_eq, ← hescaped, hquote.2]
        exact Bool.false_ne_true
      rw [hquote.1, takeGroupBackFrom?_quote hhead, QuoteWalk.next_quote _ hquote.2, map_prepend_eq_some_iff,
        ih]
      simp [Bool.not_eq_eq_eq_not]
    · have hplain : c ≠ '"' ∨ (cs.reverse ++ '(' :: rest).head? = some '\\' := by
        rw [← hescaped, ← Bool.not_eq_false, ne_eq, ← not_and_or]
        exact hquote
      rw [QuoteWalk.next_of_not_quote hquote]
      cases quoted with
      | true =>
        rw [takeGroupBackFrom?_quoted hplain, map_prepend_eq_some_iff, ih]
        exact and_congr_right fun hquoted => by rw [if_pos hquoted]
      | false =>
        by_cases hopen : c = '(' ∧ depth = 0
        · rcases hopen with ⟨rfl, rfl⟩
          constructor
          · intro h
            simp [takeGroupBackFrom?] at h
          · rintro ⟨hquoted, -, hopened⟩
            rw [hquoted, if_neg Bool.false_ne_true] at hopened
            exact absurd hopened not_opensClosed_concat_open
        · rw [takeGroupBackFrom?_shown hplain hopen, map_prepend_eq_some_iff, ih]
          refine and_congr_right fun hquoted => ?_
          have hle : [c].count '(' ≤ depth + [c].count ')' := by
            by_cases hc : c = '('
            · simp [hc] at hopen ⊢
              omega
            · simp [hc]
          rw [hquoted, if_neg Bool.false_ne_true, opensClosed_concat_shown hopen, List.count_append,
            List.count_append]
          exact and_congr_left' (by omega)

/-- What is read backwards is what stands between two parentheses. -/
theorem takeGroupBackFrom?_eq_append {quoted : Bool} {depth : Nat} {cs inner rest : List Char}
    (h : takeGroupBackFrom? quoted depth cs = some (inner, rest)) : cs = inner ++ '(' :: rest := by
  induction cs generalizing quoted depth inner with
  | nil => simp [takeGroupBackFrom?] at h
  | cons c cs ih =>
    have hmore : ∀ quoted depth, (takeGroupBackFrom? quoted depth cs).map (prepend [c]) = some (inner, rest) →
        c :: cs = inner ++ '(' :: rest := by
      intro quoted depth hmap
      rcases Option.map_eq_some_iff.mp hmap with ⟨found, hfound, hpair⟩
      rw [prepend, Prod.mk.injEq] at hpair
      have hrest : takeGroupBackFrom? quoted depth cs = some (found.1, rest) := by rw [hfound, ← hpair.2]
      rw [ih hrest, ← hpair.1, List.singleton_append, List.cons_append]
    rw [takeGroupBackFrom?] at h
    split at h
    · exact hmore _ _ h
    · split at h
      · next hstop =>
        simp only [Bool.and_eq_true, beq_iff_eq] at hstop
        simp_all
      · exact hmore _ _ h

/-- A group at the end is what comes before, an open parenthesis, what is inside and a closed one. -/
theorem takeGroupBack?_eq_append {cs before inner : List Char}
    (h : takeGroupBack? cs = some (before, inner)) : cs = before ++ '(' :: (inner ++ [')']) := by
  rw [takeGroupBack?] at h
  split at h
  · next back hback =>
    rcases Option.map_eq_some_iff.mp h with ⟨found, hfound, hpair⟩
    rw [Prod.mk.injEq] at hpair
    rw [← List.reverse_reverse cs, hback, takeGroupBackFrom?_eq_append hfound, ← hpair.1, ← hpair.2]
    simp
  · simp at h

/-- A group is found from its closing parenthesis exactly if its parentheses match outside quotes that no
backslash stands in front of. -/
theorem takeGroupBack?_eq_some_iff {before cs : List Char} :
    takeGroupBack? (before ++ '(' :: (cs ++ [')'])) = some (before, cs) ↔ IsGroup .anywhere cs := by
  have hend : before ++ '(' :: (cs ++ [')']) = (before ++ '(' :: cs) ++ [')'] := by simp
  have hback : (before ++ '(' :: cs).reverse = cs.reverse ++ '(' :: before.reverse := by simp
  have hfound : ∀ found : Option (List Char × List Char),
      (found.map fun found => (found.2.reverse, found.1.reverse)) = some (before, cs) ↔
        found = some (cs.reverse, before.reverse) := by
    intro found
    cases found with
    | none => simp
    | some found => simp [Prod.ext_iff, List.reverse_eq_iff, and_comm]
  rw [hend, takeGroupBack?_concat, hback, hfound, takeGroupBackFrom?_eq_some_iff, Nat.add_zero, OpensClosed]
  simp only [Nat.add_zero]
  rw [← isMatched_iff_suffix, isGroup_iff]

end CommandDoc.Text
