/-!
# Quotes and parentheses

Comment text can hold double-quoted strings and parenthesised groups, and separators inside of them do
not count. One scanner state says where a text stands; everything here is a walk with that state.

Main definitions:

- `Nesting` and `Nesting.next`: plain text at a depth, or a quoted string inside of it.
- `splitTopLevel` cuts at separators outside quotes and parentheses.
- `splitLastDot?` cuts at the last dot outside quotes and parentheses.
- `takeGroup?` and `takeGroupBack?` find the partner of an opening or a closing parenthesis.
-/

namespace CommandDoc.Text

/-! ## Where a text stands -/

/-- Where a left-to-right walk stands: in plain text, in a quoted string, or right after a backslash in
a quoted string, each inside a number of open parentheses. -/
inductive Nesting where
  /-- Outside quotes. -/
  | plain (depth : Nat)
  /-- Inside quotes. -/
  | quoted (depth : Nat)
  /-- Inside quotes, after a backslash. -/
  | escaped (depth : Nat)
  deriving Repr, DecidableEq

namespace Nesting

/-- The start of a text. -/
def start : Nesting := .plain 0

/-- Where the walk stands after one more character. A closing parenthesis without a partner changes
nothing. -/
def next : Nesting → Char → Nesting
  | .plain depth, c =>
    if c == '"' then .quoted depth
    else if c == '(' then .plain (depth + 1)
    else if c == ')' then .plain (depth - 1)
    else .plain depth
  | .quoted depth, c =>
    if c == '\\' then .escaped depth
    else if c == '"' then .plain depth
    else .quoted depth
  | .escaped depth, _ => .quoted depth

/-- Where the walk stands after a text. -/
def after (state : Nesting) (cs : List Char) : Nesting :=
  cs.foldl next state

/-- Walking over two texts is walking over one and then over the other. -/
theorem after_append (state : Nesting) (cs ds : List Char) :
    state.after (cs ++ ds) = (state.after cs).after ds := by
  simp [after]

end Nesting

/-! ## Cutting at the top level -/

/-- A separator cuts where it stands outside quotes and parentheses, and is not one of them itself. -/
def isCut (seps : List Char) (state : Nesting) (c : Char) : Bool :=
  state == .start && c != '"' && c != '(' && c != ')' && seps.contains c

/-- The parts of a text between its cuts, for a walk that stands at `state`. -/
def splitFrom (seps : List Char) (state : Nesting) : List Char → List (List Char)
  | [] => [[]]
  | c :: cs =>
    if isCut seps state c then [] :: splitFrom seps state cs
    else
      match splitFrom seps (state.next c) cs with
      | [] => [[c]]
      | part :: rest => (c :: part) :: rest

/-- The parts of a text between the separators outside quotes and parentheses. -/
def splitTopLevel (seps : List Char) (cs : List Char) : List (List Char) :=
  splitFrom seps .start cs

/-- What stands before and after the last top-level dot, for a walk that stands at `state`. -/
def splitLastDotFrom? (state : Nesting) : List Char → Option (List Char × List Char)
  | [] => none
  | c :: cs =>
    match splitLastDotFrom? (state.next c) cs with
    | some (before, rest) => some (c :: before, rest)
    | none => if c == '.' && state == .start then some ([], cs) else none

/-- What stands before and after the last dot outside quotes and parentheses. -/
def splitLastDot? (cs : List Char) : Option (List Char × List Char) :=
  splitLastDotFrom? .start cs

/-! ## Groups -/

/-- The text up to the parenthesis that closes the outermost open group, and the text after it. -/
def takeGroupFrom? (state : Nesting) : List Char → Option (List Char × List Char)
  | [] => none
  | c :: cs =>
    if state == .plain 1 && c == ')' then some ([], cs)
    else (takeGroupFrom? (state.next c) cs).map fun (inner, rest) => (c :: inner, rest)

/-- For a text that starts with an opening parenthesis: the inside of its group and what follows. -/
def takeGroup? : List Char → Option (List Char × List Char)
  | '(' :: cs => takeGroupFrom? (.plain 1) cs
  | _ => none

/-- The walk of `takeGroupBack?` over a reversed text, with the number of open groups. A quote that a
backslash precedes is not a quote. -/
def takeGroupBackFrom? (quoted : Bool) (depth : Nat) : List Char → Option (List Char × List Char)
  | [] => none
  | c :: cs =>
    if c == '"' && cs.head? != some '\\' then
      (takeGroupBackFrom? (!quoted) depth cs).map fun (inner, rest) => (c :: inner, rest)
    else if !quoted && c == '(' && depth == 1 then some ([], cs)
    else
      let deeper :=
        if quoted then depth else if c == ')' then depth + 1 else if c == '(' then depth - 1 else depth
      (takeGroupBackFrom? quoted deeper cs).map fun (inner, rest) => (c :: inner, rest)

/-- For a text that ends with a closing parenthesis: what precedes its group, and the inside. The text
is read from its end. -/
def takeGroupBack? (cs : List Char) : Option (List Char × List Char) :=
  match cs.reverse with
  | ')' :: back =>
    (takeGroupBackFrom? false 1 back).map fun (inner, before) => (before.reverse, inner.reverse)
  | _ => none

/-! ## Small laws -/

/-- A cut happens in the state a text starts in, and leaves it unchanged. -/
theorem isCut_state {seps : List Char} {state : Nesting} {c : Char} (h : isCut seps state c = true) :
    state = .start ∧ state.next c = .start := by
  simp only [isCut, Bool.and_eq_true, beq_iff_eq, bne_iff_ne] at h
  obtain ⟨⟨⟨⟨rfl, hq⟩, ho⟩, hc⟩, _⟩ := h
  simp [Nesting.start, Nesting.next, hq, ho, hc]

/-- Every cut makes one part, so there is always a first one. -/
theorem splitFrom_ne_nil (seps : List Char) (state : Nesting) (cs : List Char) :
    splitFrom seps state cs ≠ [] := by
  cases cs with
  | nil => simp [splitFrom]
  | cons c cs =>
    rw [splitFrom]
    split
    · simp
    · split <;> simp

end CommandDoc.Text
