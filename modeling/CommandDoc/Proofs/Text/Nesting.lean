import Mathlib.Data.Bool.AllAny
import CommandDoc.Proofs.Text.Blank
import CommandDoc.Text.Nesting
import CommandDoc.Text.Quoted

/-!
# Walks over balanced text

A walk over a text in which all quotes and parentheses are closed ends where it began, so the scanners take
such a text in one piece.  The lemmas on scanners therefore say what happens behind a balanced text, and are
all proved by induction on how the text is balanced.

Main definitions:

- `quote` writes a text in double quotes.
- `IsBalanced`: all quotes and parentheses are closed, and no separator stands outside of them.
- `IsEnclosed`: the same as a walk sees it, and `IsJoined`: texts in a row with separators between them.

Main results:

- Theorem `unquote_quote`: what is quoted can be read back.
- Theorem `IsJoined.map_trim_splitTopLevel`: texts can be put together and cut apart again.
- Theorem `splitLastDot?_append`: the last dot is found behind a balanced text.
- Theorems `takeGroup?_append` and `takeGroupBack?_append`: a balanced group is found from either end.
-/

namespace CommandDoc.Text

/-! ## Quoting -/

/-- A text with a backslash before each quote. -/
def escapeQuotes (cs : List Char) : List Char :=
  cs.flatMap fun c => if c = '"' then ['\\', '"'] else [c]

/-- A text in double quotes. -/
def quote (cs : List Char) : List Char :=
  '"' :: (escapeQuotes cs ++ ['"'])

/-- A quote gets a backslash. -/
theorem escapeQuotes_cons_quote (cs : List Char) :
    escapeQuotes ('"' :: cs) = '\\' :: '"' :: escapeQuotes cs := rfl

/-- Other characters stay as they are. -/
theorem escapeQuotes_cons {c : Char} (h : c ≠ '"') (cs : List Char) :
    escapeQuotes (c :: cs) = c :: escapeQuotes cs := by
  rw [escapeQuotes, List.flatMap_cons, if_neg h]
  rfl

/-- A text without quotes is not escaped. -/
theorem escapeQuotes_eq_self {cs : List Char} (h : '"' ∉ cs) : escapeQuotes cs = cs := by
  induction cs with
  | nil => rfl
  | cons c cs ih =>
    rw [List.mem_cons, not_or] at h
    rw [escapeQuotes_cons (Ne.symm h.1), ih h.2]

/-- A character that is no backslash is kept. -/
theorem unescapeQuotes_cons {c : Char} (h : c ≠ '\\') (cs : List Char) :
    unescapeQuotes (c :: cs) = c :: unescapeQuotes cs := by
  rw [unescapeQuotes]
  rintro rest rfl -
  exact h rfl

/-- Escaping is undone, if there are no backslashes besides its own. -/
theorem unescapeQuotes_escapeQuotes {cs : List Char} (h : '\\' ∉ cs) :
    unescapeQuotes (escapeQuotes cs) = cs := by
  induction cs with
  | nil => rfl
  | cons c cs ih =>
    rw [List.mem_cons, not_or] at h
    by_cases hquote : c = '"'
    · rw [hquote, escapeQuotes_cons_quote, unescapeQuotes, ih h.2]
    · rw [escapeQuotes_cons hquote, unescapeQuotes_cons (Ne.symm h.1), ih h.2]

/-- Nothing is read as an escaped quote exactly if no quote stands right behind a backslash. -/
theorem unescapeQuotes_eq_self_iff {cs : List Char} :
    unescapeQuotes cs = cs ↔ ¬ ['\\', '"'] <:+: cs := by
  induction cs using unescapeQuotes.induct with
  | case1 cs ih =>
    rw [unescapeQuotes]
    refine iff_of_false (fun h => ?_) (not_not_intro ⟨[], cs, rfl⟩)
    exact absurd (List.cons.inj h).1 (by decide)
  | case2 c cs hne ih =>
    rw [unescapeQuotes.eq_2 c cs hne, List.cons.injEq, List.infix_cons_iff, ih]
    have hstart : ¬ ['\\', '"'] <+: c :: cs := by
      rintro ⟨rest, hrest⟩
      obtain ⟨rfl, rfl⟩ := List.cons.inj hrest
      exact hne rest rfl rfl
    simp [hstart]
  | case3 => simp [unescapeQuotes]

/-- A quoted text has no blanks at its ends. -/
theorem trim_quote (cs : List Char) : trim (quote cs) = quote cs :=
  trim_surround (by decide) (by decide) _

/-- A text between quotes is what stands between them, with escaped quotes. -/
theorem unquote_surround (cs : List Char) : unquote ('"' :: (cs ++ ['"'])) = unescapeQuotes cs := by
  rw [unquote, trim_surround (by decide) (by decide), quotedInside?_surround]

/-- What is quoted can be read back. -/
theorem unquote_quote {cs : List Char} (h : '\\' ∉ cs) : unquote (quote cs) = cs := by
  rw [quote, unquote_surround, unescapeQuotes_escapeQuotes h]

/-- Undoing escapes only takes backslashes away. -/
theorem unescapeQuotes_sublist (cs : List Char) : (unescapeQuotes cs).Sublist cs := by
  induction cs using unescapeQuotes.induct with
  | case1 cs ih =>
    rw [unescapeQuotes]
    exact (ih.cons_cons '"').cons '\\'
  | case2 c cs hne ih =>
    rw [unescapeQuotes.eq_2 c cs hne]
    exact ih.cons_cons c
  | case3 => exact List.Sublist.refl _

/-- What is inside quotes stands between the first and the last character. -/
theorem quotedInside?_eq_some {cs inside : List Char} (h : quotedInside? cs = some inside) :
    cs = '"' :: (inside ++ ['"']) := by
  unfold quotedInside? at h
  split at h
  · next cs =>
    split at h
    · next back hback =>
      cases h
      rw [← List.reverse_cons, ← hback, List.reverse_reverse]
    · cases h
  · cases h

/-- Only quotes, backslashes and blanks are taken away from a value. -/
theorem unquote_sublist (cs : List Char) : (unquote cs).Sublist cs := by
  rw [unquote]
  split
  · next inside hinside =>
    have htrim := trim_sublist cs
    rw [quotedInside?_eq_some hinside] at htrim
    exact (unescapeQuotes_sublist inside).trans
      (((List.sublist_append_left inside ['"']).cons '"').trans htrim)
  · exact trim_sublist cs

/-- Without a quote in front nothing is taken away but blanks. -/
theorem unquote_of_head? {cs : List Char} (h : (trim cs).head? ≠ some '"') : unquote cs = trim cs := by
  have hinside : quotedInside? (trim cs) = none := by
    rw [quotedInside?]
    intro rest hrest
    exact h (by rw [hrest]; rfl)
  rw [unquote, hinside]

/-- The quote that closes a text without backslashes is not escaped. -/
theorem head?_reverse_escapeQuotes {cs : List Char} (h : '\\' ∉ cs) (rest : List Char) :
    ((escapeQuotes cs).reverse ++ '"' :: rest).head? ≠ some '\\' := by
  cases cs using List.reverseRecOn with
  | nil => simp [escapeQuotes]
  | append_singleton cs c =>
    have hc : '\\' ≠ c := fun hc => h (by rw [hc]; simp)
    rw [escapeQuotes, List.flatMap_append, List.flatMap_singleton]
    split
    · simp
    · simpa using Ne.symm hc

/-! ## Balanced texts -/

/-- All quotes and parentheses of a text are closed, and outside of them there is no backslash and no
separator. -/
inductive IsBalanced : List Char → List Char → Prop
  /-- The empty text is balanced. -/
  | nil {seps : List Char} : IsBalanced seps []
  /-- A character that opens and closes nothing and is no separator can stand in front. -/
  | char {seps : List Char} {c : Char} {cs : List Char} (hplain : c ∉ ['"', '(', ')', '\\'])
      (hsep : c ∉ seps) (h : IsBalanced seps cs) : IsBalanced seps (c :: cs)
  /-- A quoted text can stand in front. -/
  | quoted {seps inside cs : List Char} (hinside : '\\' ∉ inside) (h : IsBalanced seps cs) :
      IsBalanced seps (quote inside ++ cs)
  /-- A balanced text in parentheses can stand in front; separators inside do not count. -/
  | group {seps inside cs : List Char} (hinside : IsBalanced [] inside) (h : IsBalanced seps cs) :
      IsBalanced seps ('(' :: (inside ++ ')' :: cs))

namespace IsBalanced

variable {seps cs ds : List Char}

/-- A text without quotes, parentheses, backslashes and separators is balanced. -/
theorem of_forall (h : ∀ c ∈ cs, c ∉ ['"', '(', ')', '\\'] ∧ c ∉ seps) : IsBalanced seps cs := by
  induction cs with
  | nil => exact .nil
  | cons c cs ih =>
    obtain ⟨hplain, hsep⟩ := h c List.mem_cons_self
    exact .char hplain hsep (ih fun d hd => h d (List.mem_cons_of_mem _ hd))

/-- A fixed text can be checked. -/
theorem of_all (h : (cs.all fun c => c ∉ ['"', '(', ')', '\\'] ∧ c ∉ seps) = true) : IsBalanced seps cs :=
  of_forall fun c hc => of_decide_eq_true (List.all_eq_true.mp h c hc)

/-- Balanced texts stay balanced behind each other. -/
theorem append (hcs : IsBalanced seps cs) (hds : IsBalanced seps ds) : IsBalanced seps (cs ++ ds) := by
  induction hcs with
  | nil => exact hds
  | char hplain hsep _ ih => exact .char hplain hsep (ih hds)
  | quoted hinside _ ih =>
    rw [List.append_assoc]
    exact .quoted hinside (ih hds)
  | group hinside _ _ ih =>
    rw [List.cons_append, List.append_assoc, List.cons_append]
    exact .group hinside (ih hds)

/-- A text that is balanced for some separators is balanced for fewer of them. -/
theorem mono {fewer : List Char} (h : IsBalanced seps cs) (hsub : ∀ c ∈ fewer, c ∈ seps) :
    IsBalanced fewer cs := by
  induction h with
  | nil => exact .nil
  | char hplain hsep _ ih => exact .char hplain (fun hc => hsep (hsub _ hc)) (ih hsub)
  | quoted hinside _ ih => exact .quoted hinside (ih hsub)
  | group hinside _ _ ih => exact .group hinside (ih hsub)

/-- A quoted text without backslashes is balanced, whatever is inside. -/
theorem quote {inside : List Char} (h : '\\' ∉ inside) : IsBalanced seps (quote inside) := by
  rw [← List.append_nil (Text.quote inside)]
  exact .quoted h .nil

/-- Balanced texts stay balanced when they are put together with a balanced gap. -/
theorem intercalate {gap : List Char} {xs : List (List Char)} (hgap : IsBalanced seps gap)
    (hxs : ∀ x ∈ xs, IsBalanced seps x) : IsBalanced seps (List.intercalate gap xs) := by
  induction xs with
  | nil => exact .nil
  | cons x xs ih =>
    have hx := hxs x List.mem_cons_self
    have hrest := ih fun y hy => hxs y (List.mem_cons_of_mem _ hy)
    cases xs with
    | nil =>
      rw [List.intercalate_singleton]
      exact hx
    | cons y ys =>
      rw [List.intercalate_cons_cons]
      exact (hx.append hgap).append hrest

end IsBalanced

/-! ## Walks without a stop -/

/-- A walk over a text that starts at `state` meets no stop, where stops are told by the state and the next
character. -/
def Passes (stops : Nesting → Char → Bool) : Nesting → List Char → Prop
  | _, [] => True
  | state, c :: cs => stops state c = false ∧ Passes stops (state.next c) cs

instance decidablePasses (stops : Nesting → Char → Bool) : ∀ state cs, Decidable (Passes stops state cs)
  | _, [] => isTrue trivial
  | state, c :: cs =>
    have := decidablePasses stops (state.next c) cs
    inferInstanceAs (Decidable (stops state c = false ∧ Passes stops (state.next c) cs))

/-- A scan passes a text if it passes its first part, and from there the second. -/
theorem passes_append {stops : Nesting → Char → Bool} {state : Nesting} {cs ds : List Char} :
    Passes stops state (cs ++ ds) ↔ Passes stops state cs ∧ Passes stops (state.after cs) ds := by
  induction cs generalizing state with
  | nil => simp [Passes, Nesting.after]
  | cons c cs ih =>
    rw [List.cons_append, Passes, Passes, ih, and_assoc]
    rfl

/-- Outside quotes an ordinary character does not change the depth. -/
theorem next_plain {depth : Nat} {c : Char} (h : c ∉ ['"', '(', ')', '\\']) :
    (Nesting.plain depth).next c = .plain depth := by
  simp only [List.mem_cons, List.not_mem_nil, or_false, not_or] at h
  simp [Nesting.next, h]

/-- Nor does it inside quotes. -/
theorem next_quoted {c : Char} (hbackslash : c ≠ '\\') (hquote : c ≠ '"') (depth : Nat) :
    (Nesting.quoted depth).next c = .quoted depth := by
  simp [Nesting.next, hbackslash, hquote]

/-- Blanks never change the depth. -/
theorem next_of_isBlank (depth : Nat) {c : Char} (h : isBlank c = true) :
    (Nesting.plain depth).next c = .plain depth := by
  have hplain : ∀ d ∈ ['"', '(', ')', '\\'], isBlank d = false := List.all_iff_forall_prop.mp (by decide)
  refine next_plain fun hc => ?_
  rw [hplain c hc] at h
  cases h

/-- Blanks outside quotes change nothing. -/
theorem after_of_isBlank (depth : Nat) {gap : List Char} (hgap : ∀ c ∈ gap, isBlank c = true) :
    (Nesting.plain depth).after gap = .plain depth := by
  induction gap with
  | nil => rfl
  | cons c gap ih =>
    rw [Nesting.after, List.foldl_cons, next_of_isBlank depth (hgap c List.mem_cons_self)]
    exact ih fun d hd => hgap d (List.mem_cons_of_mem _ hd)

/-- Nor do they end a quoted text. -/
theorem eq_plain_of_after_isBlank {state : Nesting} {depth : Nat} {gap : List Char}
    (hgap : ∀ c ∈ gap, isBlank c = true) (h : state.after gap = .plain depth) : state = .plain depth := by
  induction gap generalizing state with
  | nil => exact h
  | cons c gap ih =>
    have hc : isBlank c = true := hgap c List.mem_cons_self
    have hnext : state.next c = .plain depth := ih (fun d hd => hgap d (List.mem_cons_of_mem _ hd)) h
    cases state with
    | plain other => rwa [next_of_isBlank other hc] at hnext
    | quoted other =>
      have hbackslash : c ≠ '\\' := by
        rintro rfl
        exact absurd hc (by decide)
      have hquote : c ≠ '"' := by
        rintro rfl
        exact absurd hc (by decide)
      rw [next_quoted hbackslash hquote] at hnext
      cases hnext
    | escaped other => cases hnext

/-- A scan that is inside quotes is still inside them behind escaped text. -/
theorem after_quoted (depth : Nat) {inside : List Char} (h : '\\' ∉ inside) :
    (Nesting.quoted depth).after (escapeQuotes inside) = .quoted depth := by
  induction inside with
  | nil => rfl
  | cons c inside ih =>
    rw [List.mem_cons, not_or] at h
    by_cases hquote : c = '"'
    · rw [hquote, escapeQuotes_cons_quote]
      exact ih h.2
    · rw [escapeQuotes_cons hquote]
      change ((Nesting.quoted depth).next c).after _ = _
      rw [next_quoted (Ne.symm h.1) hquote, ih h.2]

/-- A quoted text leaves the depth as it was. -/
theorem after_quote (depth : Nat) {inside : List Char} (h : '\\' ∉ inside) :
    (Nesting.plain depth).after (quote inside) = .plain depth := by
  change (Nesting.quoted depth).after (escapeQuotes inside ++ ['"']) = _
  rw [Nesting.after_append, after_quoted depth h]
  rfl

/-- A walk in quotes passes where only plain states stop. -/
theorem passes_quoted {stops : Nesting → Char → Bool} {base : Nat}
    (honly : ∀ state c, stops state c = true → state = .plain base) (depth : Nat) {inside : List Char}
    (h : '\\' ∉ inside) : Passes stops (.quoted depth) (escapeQuotes inside ++ ['"']) := by
  have hfree : ∀ state c, state ≠ .plain base → stops state c = false := by
    intro state c hstate
    rw [← Bool.not_eq_true]
    exact fun hstop => hstate (honly state c hstop)
  induction inside with
  | nil => exact ⟨hfree _ _ (by nofun), trivial⟩
  | cons c inside ih =>
    rw [List.mem_cons, not_or] at h
    by_cases hquote : c = '"'
    · rw [hquote, escapeQuotes_cons_quote]
      exact ⟨hfree _ _ (by nofun), hfree _ _ (by nofun), ih h.2⟩
    · rw [escapeQuotes_cons hquote, List.cons_append, Passes, next_quoted (Ne.symm h.1) hquote]
      exact ⟨hfree _ _ (by nofun), ih h.2⟩

/-- A walk over a balanced text ends at the depth where it began.  It meets no stop if stops are found at one
depth only, which is not below it, and none of them is in the text outside quotes and parentheses. -/
theorem IsBalanced.walk {seps cs : List Char} (h : IsBalanced seps cs) (stops : Nesting → Char → Bool)
    (base depth : Nat) (honly : ∀ state c, stops state c = true → state = .plain base ∧ c ∉ ['"', '('])
    (hbase : base ≤ depth)
    (hseps : depth = base → ∀ c, stops (.plain base) c = true → c ∈ ')' :: seps) :
    Passes stops (.plain depth) cs ∧ (Nesting.plain depth).after cs = .plain depth := by
  have hfree : ∀ state c, (state ≠ .plain base ∨ c ∈ ['"', '(']) → stops state c = false := by
    intro state c hstate
    rw [← Bool.not_eq_true]
    intro hstop
    obtain ⟨hplain, hc⟩ := honly state c hstop
    exact hstate.elim (absurd hplain) (absurd · hc)
  -- A group is walked one deeper, where separators no longer stop, so the depth varies in the induction.
  induction h generalizing depth with
  | nil => exact ⟨trivial, rfl⟩
  | @char seps c cs hplain hsep _ ih =>
    have hstop : stops (.plain depth) c = false := by
      by_cases hdepth : depth = base
      · rw [← Bool.not_eq_true]
        intro hstop
        rcases List.mem_cons.mp (hseps hdepth c (hdepth ▸ hstop)) with rfl | hc
        · exact hplain (by simp)
        · exact hsep hc
      · exact hfree _ _ (Or.inl (by simpa using hdepth))
    rw [Passes, Nesting.after, List.foldl_cons, next_plain hplain]
    exact ⟨⟨hstop, (ih depth hbase hseps).1⟩, (ih depth hbase hseps).2⟩
  | @quoted seps inside cs hinside _ ih =>
    obtain ⟨hpasses, hafter⟩ := ih depth hbase hseps
    have hquoted := passes_quoted (fun state c hstop => (honly state c hstop).1) depth hinside
    rw [passes_append, Nesting.after_append, after_quote depth hinside]
    exact ⟨⟨⟨hfree _ _ (Or.inr (by decide)), hquoted⟩, hpasses⟩, hafter⟩
  | @group seps inside cs _ _ ihinside ih =>
    obtain ⟨hpasses, hafter⟩ := ih depth hbase hseps
    obtain ⟨hinside, hdeep⟩ := ihinside (depth + 1) (Nat.le_succ_of_le hbase) (by omega)
    have hclose : stops (.plain (depth + 1)) ')' = false :=
      hfree _ _ (Or.inl (by simp; omega))
    have hopened : (Nesting.plain depth).next '(' = .plain (depth + 1) := rfl
    have hclosed : (Nesting.plain (depth + 1)).next ')' = .plain depth := rfl
    constructor
    · rw [Passes, hopened, passes_append, hdeep, Passes, hclosed]
      exact ⟨hfree _ _ (Or.inr (by decide)), hinside, hclose, hpasses⟩
    · rw [Nesting.after, List.foldl_cons, hopened, ← Nesting.after, Nesting.after_append, hdeep,
        Nesting.after, List.foldl_cons, hclosed]
      exact hafter

/-- So does any balanced text. -/
theorem IsBalanced.after {seps cs : List Char} (h : IsBalanced seps cs) (depth : Nat) :
    (Nesting.plain depth).after cs = .plain depth :=
  (h.walk (fun _ _ => false) 0 depth (by nofun) (Nat.zero_le _) (by nofun)).2

/-! ## Cutting at the top level -/

section SplitTopLevel

variable {seps : List Char}

/-- Text that is passed belongs to the first part. -/
theorem splitFrom_append {state : Nesting} {xs : List Char} (h : Passes (isCut seps) state xs)
    (ys : List Char) :
    splitFrom seps state (xs ++ ys) = (splitFrom seps (state.after xs) ys).modifyHead (xs ++ ·) := by
  induction xs generalizing state with
  | nil =>
    rw [List.nil_append, Nesting.after, List.foldl_nil]
    cases splitFrom seps state ys <;> rfl
  | cons c xs ih =>
    rw [List.cons_append, splitFrom, if_neg (Bool.eq_false_iff.mp h.1), ih h.2]
    change _ = (splitFrom seps ((state.next c).after xs) ys).modifyHead (c :: xs ++ ·)
    cases hparts : splitFrom seps ((state.next c).after xs) ys with
    | nil => exact absurd hparts (splitFrom_ne_nil _ _ _)
    | cons part parts => rfl

/-- The parts of a text are made of its characters, in order. -/
theorem sublist_of_mem_splitFrom {state : Nesting} {cs part : List Char}
    (h : part ∈ splitFrom seps state cs) : part.Sublist cs := by
  induction cs generalizing state part with
  | nil =>
    rw [splitFrom, List.mem_singleton] at h
    rw [h]
  | cons c cs ih =>
    rw [splitFrom] at h
    split at h
    · rcases List.mem_cons.mp h with rfl | h
      · exact List.nil_sublist _
      · exact (ih h).cons c
    · cases hparts : splitFrom seps (state.next c) cs with
      | nil => exact absurd hparts (splitFrom_ne_nil _ _ _)
      | cons first rest =>
        rw [hparts] at h
        have hparts' : ∀ p ∈ first :: rest, p.Sublist cs := fun p hp => ih (hparts ▸ hp)
        rcases List.mem_cons.mp h with rfl | h
        · exact (hparts' first List.mem_cons_self).cons_cons c
        · exact (hparts' part (List.mem_cons_of_mem _ h)).cons c

/-- A text that can stand between separators: it has none of them outside quotes and parentheses, and all its
quotes and parentheses are closed. -/
structure IsEnclosed (seps cs : List Char) : Prop where
  /-- No separator stands outside quotes and parentheses. -/
  passes : Passes (isCut seps) .start cs
  /-- At the end no quote and no parenthesis is open. -/
  after_eq : Nesting.start.after cs = .start

/-- A balanced text holds no separator at which it is cut. -/
theorem IsBalanced.isEnclosed {cs : List Char} (h : IsBalanced seps cs) : IsEnclosed seps cs := by
  have hcut : ∀ state c, isCut seps state c = true → state = .plain 0 ∧ c ∉ ['"', '('] ∧ c ∈ seps := by
    intro state c hcut
    simp only [isCut, Nesting.start, Bool.and_eq_true, beq_iff_eq, bne_iff_ne, List.contains_iff_mem] at hcut
    simp [hcut]
  obtain ⟨hpasses, hafter⟩ := h.walk (isCut seps) 0 0
    (fun state c hstop => ⟨(hcut state c hstop).1, (hcut state c hstop).2.1⟩) (Nat.le_refl 0)
    (fun _ c hstop => List.mem_cons_of_mem _ (hcut _ c hstop).2.2)
  exact ⟨hpasses, hafter⟩

/-- Enclosed texts stay enclosed behind each other. -/
theorem IsEnclosed.append {cs ds : List Char} (hcs : IsEnclosed seps cs) (hds : IsEnclosed seps ds) :
    IsEnclosed seps (cs ++ ds) where
  passes := by
    rw [passes_append, hcs.after_eq]
    exact ⟨hcs.passes, hds.passes⟩
  after_eq := by rw [Nesting.after_append, hcs.after_eq, hds.after_eq]

/-- Enclosed text in front belongs to the first part. -/
theorem IsEnclosed.splitTopLevel_append {cs : List Char} (h : IsEnclosed seps cs) (rest : List Char) :
    splitTopLevel seps (cs ++ rest) = (splitTopLevel seps rest).modifyHead (cs ++ ·) := by
  rw [splitTopLevel, splitFrom_append h.passes, h.after_eq, splitTopLevel]

/-- An enclosed text by itself is the only part. -/
theorem IsEnclosed.splitTopLevel_eq {cs : List Char} (h : IsEnclosed seps cs) :
    splitTopLevel seps cs = [cs] := by
  have hsplit := h.splitTopLevel_append []
  rw [List.append_nil] at hsplit
  rw [hsplit, splitTopLevel, splitFrom, List.modifyHead_cons, List.append_nil]

/-- An enclosed text in front of a separator is the first part. -/
theorem IsEnclosed.splitTopLevel_append_cons {cs : List Char} (h : IsEnclosed seps cs) {sep : Char}
    (hsep : isCut seps .start sep = true) (rest : List Char) :
    splitTopLevel seps (cs ++ sep :: rest) = cs :: splitTopLevel seps rest := by
  rw [h.splitTopLevel_append, splitTopLevel, splitFrom, if_pos hsep, List.modifyHead_cons, List.append_nil,
    ← splitTopLevel]

/-- A text in which pieces stand in a row, with a separator between two of them and blanks around it. -/
inductive IsJoined (seps : List Char) : List (List Char) → List Char → Prop
  /-- No piece is written. -/
  | nil : IsJoined seps [] []
  /-- A single piece stands by itself. -/
  | single (piece : List Char) : IsJoined seps [piece] piece
  /-- A piece stands in front of others. -/
  | cons {piece next left right text : List Char} {pieces : List (List Char)} {sep : Char} (hsep : sep ∈ seps)
      (hblank : ∀ c ∈ left ++ right, isBlank c = true) (h : IsJoined seps (next :: pieces) text) :
      IsJoined seps (piece :: next :: pieces) (piece ++ left ++ sep :: (right ++ text))

/-- Pieces with a separator and a space between them are joined. -/
theorem isJoined_intercalate {sep : Char} (hsep : sep ∈ seps) (pieces : List (List Char)) :
    IsJoined seps pieces (List.intercalate [sep, ' '] pieces) := by
  induction pieces with
  | nil => exact .nil
  | cons piece pieces ih =>
    cases pieces with
    | nil =>
      rw [List.intercalate_singleton]
      exact .single piece
    | cons next pieces =>
      have hjoined : IsJoined seps (piece :: next :: pieces)
          (piece ++ [] ++ sep :: ([' '] ++ List.intercalate [sep, ' '] (next :: pieces))) :=
        .cons hsep (List.forall_mem_singleton.mpr (by decide)) ih
      rw [List.append_nil] at hjoined
      rw [List.intercalate_cons_cons, List.append_assoc]
      exact hjoined

/-- Separators that open and close nothing and are no blanks. -/
def AreMarks (seps : List Char) : Prop :=
  ∀ c ∈ seps, c ∉ ['"', '(', ')'] ∧ isBlank c = false

instance : DecidablePred AreMarks := fun _ => decidable_of_iff _ List.all_iff_forall_prop

/-- At top level a text is cut at every separator. -/
theorem isCut_of_mem (hseps : AreMarks seps) {sep : Char} (hsep : sep ∈ seps) :
    isCut seps .start sep = true := by
  have hplain := (hseps sep hsep).1
  simp only [List.mem_cons, List.not_mem_nil, or_false, not_or] at hplain
  simp [isCut, hplain, hsep]

/-- Blanks are enclosed, as no separator is blank. -/
theorem isEnclosed_of_isBlank (hseps : AreMarks seps) {gap : List Char}
    (hgap : ∀ c ∈ gap, isBlank c = true) : IsEnclosed seps gap := by
  have hplain : ∀ c ∈ ['"', '(', ')', '\\'], isBlank c = false := List.all_iff_forall_prop.mp (by decide)
  refine (IsBalanced.of_forall fun c hc => ⟨fun hmem => ?_, fun hmem => ?_⟩).isEnclosed
  · exact absurd (hgap c hc) (by rw [hplain c hmem]; exact Bool.false_ne_true)
  · exact absurd (hgap c hc) (by rw [(hseps c hmem).2]; exact Bool.false_ne_true)

/-- Pieces that are put together are cut apart again, whatever separators stand between them. -/
theorem IsJoined.map_trim_splitTopLevel (hseps : AreMarks seps) {pieces : List (List Char)} {text : List Char}
    (h : IsJoined seps pieces text) (hne : pieces ≠ []) (hpieces : ∀ piece ∈ pieces, IsEnclosed seps piece) :
    (splitTopLevel seps text).map trim = pieces.map trim := by
  induction h with
  | nil => exact absurd rfl hne
  | single piece => rw [(hpieces piece List.mem_cons_self).splitTopLevel_eq]
  | @cons piece next left right text pieces sep hsep hblank _ ih =>
    have hblankLeft : ∀ c ∈ left, isBlank c = true := fun c hc => hblank c (List.mem_append_left _ hc)
    have hblankRight : ∀ c ∈ right, isBlank c = true := fun c hc => hblank c (List.mem_append_right _ hc)
    have hleft := isEnclosed_of_isBlank hseps hblankLeft
    have hright := isEnclosed_of_isBlank hseps hblankRight
    have hrest : (splitTopLevel seps (right ++ text)).map trim = (splitTopLevel seps text).map trim := by
      rw [hright.splitTopLevel_append]
      cases splitTopLevel seps text with
      | nil => rfl
      | cons part parts =>
        rw [List.modifyHead_cons, List.map_cons, trim_append_left_of_isBlank hblankRight, List.map_cons]
    rw [((hpieces piece List.mem_cons_self).append hleft).splitTopLevel_append_cons (isCut_of_mem hseps hsep),
      List.map_cons, trim_append_of_isBlank hblankLeft, hrest, ih (List.cons_ne_nil _ _) fun other hother =>
        hpieces other (List.mem_cons_of_mem _ hother)]
    rfl

end SplitTopLevel

/-! ## The last dot -/

/-- A text is split in one way at a character that occurs behind it a given number of times. -/
theorem append_cons_eq_of_count_eq {c : Char} {xs ys us vs : List Char} (hcount : ys.count c = vs.count c)
    (h : xs ++ c :: ys = us ++ c :: vs) : xs = us ∧ ys = vs := by
  have hnil : ∀ {ys more vs : List Char}, ys.count c = vs.count c → c :: ys = more ++ c :: vs → more = [] := by
    intro ys more vs hcount hmore
    cases more with
    | nil => rfl
    | cons d more =>
      rw [List.cons_append, List.cons.injEq] at hmore
      rw [hmore.2, List.count_append, List.count_cons_self] at hcount
      omega
  rcases List.append_eq_append_iff.mp h with ⟨more, hus, hmore⟩ | ⟨more, hxs, hmore⟩
  · obtain rfl := hnil hcount hmore
    simp_all
  · obtain rfl := hnil hcount.symm hmore
    simp_all


/-- The last dot of a text stays the last one behind other text. -/
theorem splitLastDotFrom?_append (state : Nesting) (xs : List Char) {ys before rest : List Char}
    (h : splitLastDotFrom? (state.after xs) ys = some (before, rest)) :
    splitLastDotFrom? state (xs ++ ys) = some (xs ++ before, rest) := by
  induction xs generalizing state with
  | nil => exact h
  | cons c xs ih => rw [List.cons_append, splitLastDotFrom?, ih _ h]; rfl

/-- There is no last dot exactly if no dot stands at top level. -/
theorem splitLastDotFrom?_eq_none_iff {state : Nesting} {xs : List Char} :
    splitLastDotFrom? state xs = none ↔ Passes (fun state c => c == '.' && state == .start) state xs := by
  induction xs generalizing state with
  | nil => simp [splitLastDotFrom?, Passes]
  | cons c xs ih =>
    rw [Passes, splitLastDotFrom?, ← ih]
    split
    · next hfound => simp [hfound]
    · next hnone => simp [hnone, Bool.eq_false_iff]

/-- A text in which dots are enclosed has no last dot. -/
theorem IsBalanced.splitLastDot?_eq_none {cs : List Char} (h : IsBalanced ['.'] cs) :
    splitLastDot? cs = none := by
  refine splitLastDotFrom?_eq_none_iff.mpr (h.walk _ 0 0 ?_ (Nat.le_refl 0) ?_).1
  · intro state c hstop
    simp only [Nesting.start, Bool.and_eq_true, beq_iff_eq] at hstop
    simp [hstop]
  · intro _ c hstop
    simp only [Bool.and_eq_true, beq_iff_eq] at hstop
    simp [hstop]

/-- A dot outside quotes and parentheses is the last one if there is none behind it. -/
theorem splitLastDotFrom?_cons_dot {rest : List Char} (h : splitLastDot? rest = none) :
    splitLastDotFrom? .start ('.' :: rest) = some ([], rest) := by
  rw [splitLastDot?] at h
  rw [splitLastDotFrom?, show Nesting.next .start '.' = .start from rfl, h]
  rfl

/-- What stands around the last dot: in front of it all quotes and parentheses are closed, and behind it there
is no such dot. -/
theorem splitLastDotFrom?_eq_some_iff {state : Nesting} {cs before rest : List Char} :
    splitLastDotFrom? state cs = some (before, rest) ↔
      cs = before ++ '.' :: rest ∧ state.after before = .start ∧ splitLastDot? rest = none := by
  constructor
  · intro h
    induction cs generalizing state before with
    | nil => cases h
    | cons c cs ih =>
      rw [splitLastDotFrom?] at h
      split at h
      · next front back hfound =>
        cases h
        obtain ⟨hcs, hafter, hnone⟩ := ih hfound
        exact ⟨by rw [hcs, List.cons_append], hafter, hnone⟩
      · next hnone =>
        split at h
        · next hdot =>
          cases h
          rw [Bool.and_eq_true, beq_iff_eq, beq_iff_eq] at hdot
          obtain ⟨rfl, rfl⟩ := hdot
          exact ⟨rfl, rfl, hnone⟩
        · cases h
  · rintro ⟨rfl, hafter, hnone⟩
    have hdot : splitLastDotFrom? (state.after before) ('.' :: rest) = some ([], rest) := by
      rw [hafter, splitLastDotFrom?_cons_dot hnone]
    have hfound := splitLastDotFrom?_append state before hdot
    rwa [List.append_nil] at hfound

/-- The last dot is found behind a balanced text. -/
theorem splitLastDot?_append {seps cs name : List Char} (hcs : IsBalanced seps cs)
    (hname : IsBalanced ['.'] name) : splitLastDot? (cs ++ '.' :: name) = some (cs, name) :=
  splitLastDotFrom?_eq_some_iff.mpr ⟨rfl, hcs.after 0, hname.splitLastDot?_eq_none⟩

/-- Blanks around the two parts of a text do not move its last dot. -/
theorem splitLastDot?_trim {cs before rest : List Char} (h : splitLastDot? cs = some (before, rest)) :
    splitLastDot? (trim before ++ '.' :: trim rest) = some (trim before, trim rest) := by
  obtain ⟨-, hafter, hnone⟩ := splitLastDotFrom?_eq_some_iff.mp h
  refine splitLastDotFrom?_eq_some_iff.mpr ⟨rfl, ?_, ?_⟩
  · obtain ⟨front, back, hfront, hback, hbefore⟩ := exists_eq_append_trim before
    rw [hbefore, Nesting.after_append, Nesting.start, after_of_isBlank 0 hfront, Nesting.after_append] at hafter
    exact eq_plain_of_after_isBlank hback hafter
  · obtain ⟨front, back, hfront, hback, hrest⟩ := exists_eq_append_trim rest
    rw [splitLastDot?, splitLastDotFrom?_eq_none_iff] at hnone ⊢
    rw [hrest, passes_append, Nesting.start, after_of_isBlank 0 hfront, passes_append] at hnone
    exact hnone.2.1

/-! ## Groups -/

/-- What was found behind a text, with the text in front of it. -/
def prepend (xs : List Char) (found : List Char × List Char) : List Char × List Char :=
  (xs ++ found.1, found.2)

theorem map_prepend_nil (found : Option (List Char × List Char)) : found.map (prepend []) = found := by
  cases found <;> rfl

/-- Texts are put in front one after the other. -/
theorem map_prepend_map_prepend (xs ys : List Char) (found : Option (List Char × List Char)) :
    (found.map (prepend ys)).map (prepend xs) = found.map (prepend (xs ++ ys)) := by
  cases found with
  | none => rfl
  | some found => simp [prepend]

/-- A group goes on behind text that does not close it. -/
theorem takeGroupFrom?_append {state : Nesting} {xs : List Char}
    (h : Passes (fun state c => state == .plain 1 && c == ')') state xs) (ys : List Char) :
    takeGroupFrom? state (xs ++ ys) = (takeGroupFrom? (state.after xs) ys).map (prepend xs) := by
  induction xs generalizing state with
  | nil => exact (map_prepend_nil _).symm
  | cons c xs ih =>
    rw [List.cons_append, takeGroupFrom?, if_neg (Bool.eq_false_iff.mp h.1), ih h.2]
    exact map_prepend_map_prepend [c] xs _

/-- A balanced group is found from its opening parenthesis. -/
theorem takeGroup?_append {cs : List Char} (h : IsBalanced [] cs) (rest : List Char) :
    takeGroup? ('(' :: (cs ++ ')' :: rest)) = some (cs, rest) := by
  have hstop : ∀ state c, (state == Nesting.plain 1 && c == ')') = true →
      state = .plain 1 ∧ c = ')' := by
    intro state c hstop
    simpa using hstop
  obtain ⟨hpasses, hafter⟩ := h.walk _ 1 1
    (fun state c hc => ⟨(hstop state c hc).1, by rw [(hstop state c hc).2]; decide⟩) (Nat.le_refl 1)
    (fun _ c hc => by rw [(hstop _ c hc).2]; exact List.mem_cons_self)
  rw [takeGroup?, takeGroupFrom?_append hpasses, hafter]
  simp [takeGroupFrom?, prepend]

/-! ## Groups from their end -/

/-- Read from the end, a quote without a backslash in front of it starts or ends a quoted text. -/
theorem takeGroupBackFrom?_quote {cs : List Char} (h : cs.head? ≠ some '\\') (quoted : Bool)
    (depth : Nat) :
    takeGroupBackFrom? quoted depth ('"' :: cs)
      = (takeGroupBackFrom? (!quoted) depth cs).map (prepend ['"']) := by
  rw [takeGroupBackFrom?, if_pos (by simpa using h)]
  rfl

/-- Read from the end, everything else inside quotes belongs to them, an escaped quote too. -/
theorem takeGroupBackFrom?_quoted {c : Char} {cs : List Char} (h : c ≠ '"' ∨ cs.head? = some '\\')
    (depth : Nat) :
    takeGroupBackFrom? true depth (c :: cs) = (takeGroupBackFrom? true depth cs).map (prepend [c]) := by
  have hescaped : ¬(c == '"' && cs.head? != some '\\') = true := by
    rcases h with hc | hhead
    · simp [hc]
    · simp [hhead]
  rw [takeGroupBackFrom?, if_neg hescaped, if_neg (by simp)]
  rfl

/-- Read from the end, escaped text does not leave the quotes it stands in. -/
theorem takeGroupBackFrom?_escapeQuotes {inside : List Char} (depth : Nat) (rest : List Char) :
    takeGroupBackFrom? true depth ((escapeQuotes inside).reverse ++ rest)
      = (takeGroupBackFrom? true depth rest).map (prepend (escapeQuotes inside).reverse) := by
  induction inside generalizing rest with
  | nil => exact (map_prepend_nil _).symm
  | cons c inside ih =>
    by_cases hquote : c = '"'
    · rw [hquote, escapeQuotes_cons_quote]
      simp only [List.reverse_cons, List.append_assoc, List.cons_append, List.nil_append]
      rw [ih, takeGroupBackFrom?_quoted (Or.inr rfl), takeGroupBackFrom?_quoted (Or.inl (by decide)),
        map_prepend_map_prepend, map_prepend_map_prepend, List.append_assoc, List.singleton_append]
    · rw [escapeQuotes_cons hquote, List.reverse_cons, List.append_assoc, List.singleton_append, ih,
        takeGroupBackFrom?_quoted (Or.inl hquote), map_prepend_map_prepend]

/-- Read from the end, a balanced text does not close the group it stands in. -/
theorem takeGroupBackFrom?_append {seps cs : List Char} (h : IsBalanced seps cs) (depth : Nat)
    (rest : List Char) (hrest : rest.head? ≠ some '\\') :
    takeGroupBackFrom? false (depth + 1) (cs.reverse ++ rest)
      = (takeGroupBackFrom? false (depth + 1) rest).map (prepend cs.reverse) := by
  -- Backwards the last part is read first, so `rest` takes in the parts in front of it.
  induction h generalizing depth rest with
  | nil => exact (map_prepend_nil _).symm
  | @char seps c cs hplain hsep _ ih =>
    simp only [List.mem_cons, List.not_mem_nil, or_false, not_or] at hplain
    have hc : takeGroupBackFrom? false (depth + 1) (c :: rest)
        = (takeGroupBackFrom? false (depth + 1) rest).map (prepend [c]) := by
      rw [takeGroupBackFrom?, if_neg (by simp [hplain]), if_neg (by simp [hplain])]
      simp only [beq_iff_eq, hplain, if_false, Bool.false_eq_true]
      rfl
    rw [List.reverse_cons, List.append_assoc, List.singleton_append, ih depth _ (by simp [hplain]), hc,
      map_prepend_map_prepend]
  | @quoted seps inside cs hinside _ ih =>
    have hback : (quote inside).reverse ++ rest = '"' :: ((escapeQuotes inside).reverse ++ '"' :: rest) := by
      simp [quote]
    rw [List.reverse_append, List.append_assoc, hback, ih depth _ (by simp),
      takeGroupBackFrom?_quote (head?_reverse_escapeQuotes hinside rest), Bool.not_false,
      takeGroupBackFrom?_escapeQuotes, takeGroupBackFrom?_quote hrest, Bool.not_true,
      map_prepend_map_prepend, map_prepend_map_prepend, map_prepend_map_prepend]
    simp [quote]
  | @group seps inside cs _ _ ihinside ih =>
    have hback : ('(' :: (inside ++ ')' :: cs)).reverse ++ rest
        = cs.reverse ++ ')' :: (inside.reverse ++ '(' :: rest) := by
      simp
    have hclose : ∀ ds, takeGroupBackFrom? false (depth + 1) (')' :: ds)
        = (takeGroupBackFrom? false (depth + 1 + 1) ds).map (prepend [')']) := fun ds => rfl
    have hopen : takeGroupBackFrom? false (depth + 1 + 1) ('(' :: rest)
        = (takeGroupBackFrom? false (depth + 1) rest).map (prepend ['(']) := by
      rw [takeGroupBackFrom?, if_neg (by simp), if_neg (by simp)]
      rfl
    rw [hback, ih depth _ (by simp), hclose, ihinside (depth + 1) _ (by simp), hopen,
      map_prepend_map_prepend, map_prepend_map_prepend, map_prepend_map_prepend]
    simp

/-- A group at the end is read from its closing parenthesis. -/
theorem takeGroupBack?_concat (cs : List Char) :
    takeGroupBack? (cs ++ [')'])
      = (takeGroupBackFrom? false 1 cs.reverse).map fun found => (found.2.reverse, found.1.reverse) := by
  rw [takeGroupBack?, List.reverse_concat]
  rfl

/-- A balanced group is found from its closing parenthesis. -/
theorem takeGroupBack?_append {cs : List Char} (h : IsBalanced [] cs) (before : List Char) :
    takeGroupBack? (before ++ '(' :: (cs ++ [')'])) = some (before, cs) := by
  have hinside := takeGroupBackFrom?_append h 0 ('(' :: before.reverse) (by simp)
  have hback : (before ++ '(' :: cs).reverse = cs.reverse ++ '(' :: before.reverse := by simp
  rw [← List.cons_append, ← List.append_assoc, takeGroupBack?_concat, hback, hinside]
  simp [takeGroupBackFrom?, prepend]

end CommandDoc.Text
