import CommandDoc.Proofs.Param.Attributes
import CommandDoc.Proofs.Param.BlockEnds
import CommandDoc.Proofs.Text.WordChar

/-!
# Default values between words

A default value that stands between words is read up to its end: a value in quotes up to the closing quote, and
a call up to the parenthesis that closes its arguments.  Everything in it is taken out with it, so that only
the words remain.  But a text that ends with a parenthesis ends with an attribute block, and this block is taken
out first.

Main definitions:

- `InlineDefault.IsValue`: a value that is read up to its end.
- `InlineDefault.IsCallee`: what can be called.

Main results:

- Theorem `InlineDefault.find?_unwords`: the default value between words is found.
- Theorem `Candidate.ofText_quotedDefault`: a value in quotes is read as it is.
- Theorem `Candidate.ofText_calledDefault`: a call is read as it is exactly if words follow it.
-/

namespace CommandDoc

open Text

/-! ## Default values in a block -/

namespace Attribute

/-- The default value that an attribute gives. -/
def givenDefault? : Attribute → Option String
  | environment _ behind => behind
  | defaultValue value => some value
  | fallback value => some value
  | _ => none

/-- A default an entry gives is made of characters of that entry, in their order. -/
theorem ReadsAs.sublist_of_mem_givenDefault? {entry : List Char} {found : Attribute} (h : ReadsAs entry found) :
    ∀ value ∈ found.givenDefault?, value.toList.Sublist entry := by
  have hunquote : ∀ {keyword : String} {rest : List Char}, keywordValue? keyword entry = some rest →
      (String.ofList (unquote rest)).toList.Sublist entry := by
    intro keyword rest hrest
    obtain ⟨behind, hbehind, rfl⟩ := Option.map_eq_some_iff.mp hrest
    rw [String.toList_ofList]
    exact (unquote_sublist _).trans ((trim_sublist behind).trans (afterWord?_sublist hbehind))
  cases h with
  | environment h =>
    obtain ⟨_, _, heq, hfallback⟩ := environment?_eq_some h
    cases heq
    exact hfallback
  | defaultValue h =>
    rintro _ ⟨⟩
    exact hunquote h
  | fallback h =>
    rintro _ ⟨⟩
    exact hunquote h
  | _ => simp [givenDefault?]

/-- An attribute says nothing about the flags and the description, makes no argument of a parameter, and says
something about the default value only if it gives one. -/
theorem apply_eq (found : Attribute) (c : Candidate) (pending : Pending) :
    (found.apply c pending).1.flags = c.flags ∧ (found.apply c pending).1.description = c.description ∧
      (found.apply c pending).1.positional = c.positional ∧
      ((found.apply c pending).1.defaultValue = c.defaultValue ∨
        (found.apply c pending).1.defaultValue = found.givenDefault?) := by
  cases found with
  | environment variableName behind =>
    cases behind with
    | none => exact ⟨rfl, rfl, rfl, Or.inl rfl⟩
    | some value => exact ⟨rfl, rfl, rfl, Or.inr rfl⟩
  | fallback value =>
    cases pending with
    | variableName => exact ⟨rfl, rfl, rfl, Or.inr rfl⟩
    | _ => exact ⟨rfl, rfl, rfl, Or.inl rfl⟩
  | word names => cases pending <;> exact ⟨rfl, rfl, rfl, Or.inl rfl⟩
  | defaultValue value => exact ⟨rfl, rfl, rfl, Or.inr rfl⟩
  | _ => exact ⟨rfl, rfl, rfl, Or.inl rfl⟩

/-- Applying attributes leaves the flags, the description and the position as they are, and the default it ends with
is the old one or one that an attribute gave. -/
theorem applyAll_eq (c : Candidate) (pending : Pending) (attributes : List Attribute) :
    (applyAll c pending attributes).flags = c.flags ∧
      (applyAll c pending attributes).description = c.description ∧
      (applyAll c pending attributes).positional = c.positional ∧
      ((applyAll c pending attributes).defaultValue = c.defaultValue ∨
        ∃ found ∈ attributes, (applyAll c pending attributes).defaultValue = found.givenDefault?) := by
  induction attributes generalizing c pending with
  | nil => exact ⟨rfl, rfl, rfl, Or.inl rfl⟩
  | cons found attributes ih =>
    obtain ⟨hflags, hdescription, hpositional, hdefault⟩ := apply_eq found c pending
    obtain ⟨hflags', hdescription', hpositional', hdefault'⟩ :=
      ih (found.apply c pending).1 (found.apply c pending).2
    refine ⟨hflags'.trans hflags, hdescription'.trans hdescription, hpositional'.trans hpositional, ?_⟩
    rw [applyAll]
    rcases hdefault' with hkept | ⟨later, hlater, hgiven⟩
    · rw [hkept]
      exact hdefault.imp_right fun hgiven => ⟨found, List.mem_cons_self, hgiven⟩
    · exact Or.inr ⟨later, List.mem_cons_of_mem _ hlater, hgiven⟩

/-- An entry of a block is made of characters of the block, in their order. -/
theorem sublist_of_mem_entries {block entry : List Char} (h : entry ∈ entries block) : entry.Sublist block := by
  obtain ⟨part, hpart, rfl⟩ := List.mem_map.mp (List.mem_filter.mp h).1
  exact (trim_sublist part).trans (sublist_of_mem_splitFrom hpart)

end Attribute

/-- A block leaves the flags as they are. -/
theorem readAttributes_flags (block : List Char) (c : Candidate) : (readAttributes block c).flags = c.flags :=
  (Attribute.applyAll_eq c .nothing _).1

/-- A block leaves the description as it is. -/
theorem readAttributes_description (block : List Char) (c : Candidate) :
    (readAttributes block c).description = c.description :=
  (Attribute.applyAll_eq c .nothing _).2.1

/-- A block leaves a candidate an argument, or not, as it was. -/
theorem readAttributes_positional (block : List Char) (c : Candidate) :
    (readAttributes block c).positional = c.positional :=
  (Attribute.applyAll_eq c .nothing _).2.2.1

/-- The default value that a block gives is part of the block. -/
theorem sublist_of_readAttributes {block : List Char} {value : String}
    (h : (readAttributes block {}).defaultValue = some value) : value.toList.Sublist block := by
  rcases (Attribute.applyAll_eq {} .nothing ((Attribute.entries block).map Attribute.ofEntry)).2.2.2 with
    hnone | ⟨found, hfound, hgiven⟩
  · rw [readAttributes, hnone] at h
    cases h
  · obtain ⟨entry, hentry, rfl⟩ := List.mem_map.mp hfound
    rw [readAttributes, hgiven] at h
    exact ((Attribute.readsAs_ofEntry _).sublist_of_mem_givenDefault? value h).trans (Attribute.sublist_of_mem_entries hentry)

namespace InlineDefault

/-! ## Finding the keyword -/

/-- The keyword is found behind a text without a colon. -/
theorem splitKeyword?_append {previous : Option Char} {front : List Char} (hfront : ':' ∉ front)
    (hlast : ∀ c ∈ front.getLast?.or previous, isWordChar c = false) (rest : List Char) :
    splitKeyword? previous (front ++ ("default:".toList ++ rest)) = some (front, rest) := by
  induction front generalizing previous with
  | nil =>
    have hkeyword : afterWord? foldLetter "default:".toList ("default:".toList ++ rest) = some rest :=
      afterWord?_eq_some_iff.mpr ⟨_, rfl, by decide⟩
    have hprevious : (previous.map isWordChar).getD false = false := by
      cases previous with
      | none => rfl
      | some c => exact hlast c rfl
    have hcons : "default:".toList ++ rest = 'd' :: ("efault:".toList ++ rest) := rfl
    rw [hcons] at hkeyword
    rw [List.nil_append, hcons, splitKeyword?, hkeyword, hprevious]
    rfl
  | cons c front ih =>
    have hkeyword : afterWord? foldLetter "default:".toList (c :: (front ++ ("default:".toList ++ rest)))
        = none := by
      rw [Option.eq_none_iff_forall_ne_some]
      intro behind hbehind
      obtain ⟨xs, hcut, hxs⟩ := afterWord?_eq_some_iff.mp hbehind
      have hword : "default:".toList = "default".toList ++ [':'] := rfl
      rw [hword, List.map_eq_append_iff] at hxs
      obtain ⟨letters, colon, rfl, hletters, hcolon⟩ := hxs
      obtain ⟨d, rfl⟩ := List.length_eq_one_iff.mp (by simpa using congrArg List.length hcolon)
      have hd : d = ':' := eq_of_foldLetter_eq (by decide) (List.singleton_inj.mp hcolon)
      have hfree : ':' ∉ letters := by
        intro hmem
        have hfold := List.mem_map_of_mem (f := foldLetter) hmem
        rw [hletters] at hfold
        exact absurd hfold (by decide)
      have hfront' : ':' ∉ c :: front ++ "default".toList := by
        rw [List.mem_append, not_or]
        exact ⟨hfront, by decide⟩
      have hsplit : (c :: front ++ "default".toList) ++ ':' :: rest = letters ++ ':' :: behind := by
        rw [hd, List.append_assoc] at hcut
        rw [List.append_assoc]
        exact hcut
      have hlength := congrArg List.length (append_cons_eq_of_not_mem_front hfront' hfree hsplit).1
      have hseven := congrArg List.length hletters
      simp at hlength hseven
      omega
    rw [List.mem_cons, not_or] at hfront
    rw [← getLast?_or_some] at hlast
    rw [List.cons_append, splitKeyword?, hkeyword, ite_self, ih hfront.2 hlast]
    rfl

/-! ## Where a value ends -/

/-- A value in quotes is read up to the closing quote. -/
theorem splitQuote_escapeQuotes {value : List Char} (h : '\\' ∉ value) (rest : List Char) :
    splitQuote false (escapeQuotes value ++ '"' :: rest) = (escapeQuotes value ++ ['"'], rest) := by
  induction value with
  | nil => rfl
  | cons c value ih =>
    rw [List.mem_cons, not_or] at h
    by_cases hquote : c = '"'
    · rw [hquote, escapeQuotes_cons_quote, List.cons_append, List.cons_append, splitQuote, splitQuote]
      simp [ih h.2]
    · have hslash : (c == '\\') = false := by simpa using Ne.symm h.1
      rw [escapeQuotes_cons hquote, List.cons_append, splitQuote]
      simp [hquote, hslash, ih h.2]

/-- Inside parentheses a value goes on, as long as it closes no more of them than are open. -/
theorem splitBare_append {depth : Nat} {cs : List Char}
    (h : ∀ front, front <+: cs → front.count ')' ≤ front.count '(' + depth) (rest : List Char) :
    splitBare (depth + 1) (cs ++ rest)
      = prepend cs (splitBare (depth + 1 + cs.count '(' - cs.count ')') rest) := by
  induction cs generalizing depth with
  | nil => rfl
  | cons c cs ih =>
    have hfirst := h [c] (by simp)
    have hdeeper : (if c == '(' then depth + 1 + 1 else if c == ')' then depth + 1 - 1 else depth + 1)
        = depth + [c].count '(' - [c].count ')' + 1 := by
      by_cases hopen : c = '('
      · simp [hopen]
      · by_cases hclose : c = ')'
        · simp [hclose] at hfirst ⊢
          omega
        · simp [hopen, hclose]
    have hrest : ∀ front, front <+: cs →
        front.count ')' ≤ front.count '(' + (depth + [c].count '(' - [c].count ')') := by
      intro front hfront
      have hcons := h (c :: front) (List.cons_prefix_cons.mpr ⟨rfl, hfront⟩)
      rw [← List.singleton_append, List.count_append, List.count_append] at hcons
      omega
    have hcount : depth + [c].count '(' - [c].count ')' + 1 + cs.count '(' - cs.count ')'
        = depth + 1 + (c :: cs).count '(' - (c :: cs).count ')' := by
      rw [← @List.singleton_append _ c cs, List.count_append, List.count_append]
      omega
    rw [List.cons_append, splitBare, if_neg (by simp)]
    simp only [hdeeper]
    rw [ih hrest, hcount]
    rfl

/-- A value in a text that is read up to its end, if `behind` follows it. -/
structure IsValue (written behind : List Char) : Prop where
  /-- No blanks stand around it. -/
  trim_eq : trim written = written
  /-- There is something in it. -/
  unquote_ne_nil : unquote written ≠ []
  /-- It ends where it should. -/
  splitValue_eq : splitValue (written ++ behind) = (written, behind)

/-- A quoted value without a backslash ends at its closing quote, whatever follows it. -/
theorem isValue_quote {value : List Char} (hne : value ≠ []) (hslash : '\\' ∉ value) (behind : List Char) :
    IsValue (quote value) behind where
  trim_eq := trim_quote value
  unquote_ne_nil := by rwa [unquote_quote hslash]
  splitValue_eq := by
    have hsplit : quote value ++ behind = '"' :: (escapeQuotes value ++ '"' :: behind) := by simp [quote]
    rw [hsplit, splitValue, splitQuote_escapeQuotes hslash]
    rfl

/-- What can be called: word characters and dots, such as an identifier behind qualifiers. -/
def IsCallee (name : List Char) : Prop :=
  name ≠ [] ∧ ∀ c ∈ name, isWordChar c = true ∨ c = '.'

/-- Being a callee is decided by the characters of the name. -/
theorem isCallee_iff {name : List Char} :
    IsCallee name ↔ name ≠ [] ∧ (name.all fun c => isWordChar c || c == '.') = true := by
  simp [IsCallee]

instance : DecidablePred IsCallee := fun _ => decidable_of_iff _ isCallee_iff.symm

section Callee

variable {name : List Char}

/-- The name of a call has no blank in it. -/
theorem IsCallee.forall_isBlank (h : IsCallee name) : ∀ c ∈ name, isBlank c = false := by
  intro c hc
  rcases h.2 c hc with hword | rfl
  · exact isBlank_eq_false_of_isWordChar hword
  · decide

/-- The name of a call holds no sign other than a dot. -/
theorem IsCallee.not_mem (h : IsCallee name) {c : Char} (hc : isWordChar c = false) (hdot : c ≠ '.') :
    c ∉ name := by
  intro hmem
  rcases h.2 c hmem with hword | hdot'
  · rw [hc] at hword
    cases hword
  · exact hdot hdot'

/-- Outside parentheses a value goes on over the name of what is called. -/
theorem IsCallee.splitBare_append (h : IsCallee name) (rest : List Char) :
    splitBare 0 (name ++ rest) = prepend name (splitBare 0 rest) := by
  have hgoes : ∀ c ∈ name, (c == ')' || c == ',' || c == ';' || isBlank c) = false ∧ c ≠ '(' ∧ c ≠ ')' := by
    intro c hc
    have hne : ∀ d : Char, isWordChar d = false → d ≠ '.' → c ≠ d := by
      rintro d hd hdot rfl
      exact h.not_mem hd hdot hc
    simp [hne ')' (by decide) (by decide), hne ',' (by decide) (by decide), hne ';' (by decide) (by decide),
      hne '(' (by decide) (by decide), h.forall_isBlank c hc]
  clear h
  induction name with
  | nil => rfl
  | cons c name ih =>
    obtain ⟨hstop, hopen, hclose⟩ := hgoes c List.mem_cons_self
    rw [List.cons_append, splitBare, hstop, Bool.and_false, if_neg Bool.false_ne_true]
    simp only [beq_iff_eq, hopen, hclose, if_false, ih fun d hd => hgoes d (List.mem_cons_of_mem _ hd)]
    rfl

/-- No bare value stands before a space. -/
theorem splitBare_of_space {behind : List Char} (h : ∀ c ∈ behind.head?, c = ' ') :
    splitBare 0 behind = ([], behind) := by
  cases behind with
  | nil => rfl
  | cons c behind =>
    rw [h c rfl]
    rfl

/-- What starts with the name of a call does not start with a quote. -/
theorem IsCallee.head?_append (h : IsCallee name) (rest : List Char) : (name ++ rest).head? ≠ some '"' := by
  obtain ⟨c, cs, rfl⟩ := List.exists_cons_of_ne_nil h.1
  have hc : c ≠ '"' := by
    rintro rfl
    exact h.not_mem (by decide) (by decide) List.mem_cons_self
  simpa using hc

/-- A call has nothing to trim. -/
theorem IsCallee.trim_append (h : IsCallee name) (args : List Char) :
    trim (name ++ AttributeBlock.parenthesize args) = name ++ AttributeBlock.parenthesize args := by
  have hstart := (trim_eq_self_iff.mp (trim_of_forall_not_isBlank h.forall_isBlank)).1
  have hend := (trim_eq_self_iff.mp (AttributeBlock.trim_parenthesize args)).2
  rw [trim, trimStart_append h.1 hstart, trimEnd_append _ (by rw [hend]; exact List.cons_ne_nil _ _), hend]

/-- The name of a call has no quotes to lose. -/
theorem IsCallee.unquote_eq (h : IsCallee name) : unquote name = name := by
  have htrim := trim_of_forall_not_isBlank h.forall_isBlank
  have hhead := h.head?_append []
  rw [List.append_nil, ← htrim] at hhead
  rw [unquote_of_head? hhead, htrim]

/-- A call has no quotes to lose either: it ends with its closing bracket. -/
theorem IsCallee.unquote_append (h : IsCallee name) (args : List Char) :
    unquote (name ++ AttributeBlock.parenthesize args) = name ++ AttributeBlock.parenthesize args := by
  have hhead := h.head?_append (AttributeBlock.parenthesize args)
  rw [← h.trim_append] at hhead
  rw [unquote_of_head? hhead, h.trim_append]

/-- A value that starts with the name of a call takes that name and goes on as a bare value. -/
theorem IsCallee.splitValue_append (h : IsCallee name) (rest : List Char) :
    splitValue (name ++ rest) = prepend name (splitBare 0 rest) := by
  rw [splitValue, h.splitBare_append]
  intro cs hquote
  exact h.head?_append rest (congrArg List.head? hquote)

/-- A name by itself is read up to the space behind it. -/
theorem IsCallee.isValue (h : IsCallee name) {behind : List Char} (hbehind : ∀ c ∈ behind.head?, c = ' ') :
    IsValue name behind where
  trim_eq := trim_of_forall_not_isBlank h.forall_isBlank
  unquote_ne_nil := by
    rw [h.unquote_eq]
    exact h.1
  splitValue_eq := by
    rw [h.splitValue_append, splitBare_of_space hbehind, prepend, List.append_nil]

/-- A call is read up to the parenthesis that closes its arguments. -/
theorem IsCallee.isValue_append (h : IsCallee name) {args : List Char} (hargs : IsMatched args)
    {behind : List Char} (hbehind : ∀ c ∈ behind.head?, c = ' ') :
    IsValue (name ++ AttributeBlock.parenthesize args) behind where
  trim_eq := h.trim_append args
  unquote_ne_nil := by
    rw [h.unquote_append]
    exact List.append_ne_nil_of_left_ne_nil h.1 _
  splitValue_eq := by
    have hinside : ∀ front, front <+: args → front.count ')' ≤ front.count '(' + 0 := hargs.closesOpened
    have hclosed : splitBare 1 (args ++ ')' :: behind) = prepend args (splitBare 1 (')' :: behind)) := by
      have hdepth : 0 + 1 + args.count '(' - args.count ')' = 1 := by
        rw [hargs.count_eq]
        omega
      rw [InlineDefault.splitBare_append hinside, hdepth]
    have hopened : splitBare 0 ('(' :: (args ++ ')' :: behind))
        = prepend ['('] (splitBare 1 (args ++ ')' :: behind)) := rfl
    have hend : splitBare 1 (')' :: behind) = prepend [')'] (splitBare 0 behind) := rfl
    rw [List.append_assoc, h.splitValue_append, AttributeBlock.parenthesize_append, hopened, hclosed, hend,
      splitBare_of_space hbehind]
    simp [prepend, AttributeBlock.parenthesize]

end Callee

/-! ## The default value between words -/

/-- The default value between words is found. -/
theorem find?_unwords {ws vs : List (List Char)} (hws : ∀ w ∈ ws, IsProse w) {written : List Char}
    (h : IsValue written (spacedWords vs)) :
    find? (unwords (ws ++ "default:".toList :: written :: vs))
      = some ⟨leadingWords ws, unquote written, spacedWords vs⟩ := by
  have hfront : ':' ∉ leadingWords ws := by
    rw [leadingWords, List.mem_flatMap]
    rintro ⟨w, hw, hmem⟩
    rcases List.mem_append.mp hmem with hmem | hmem
    · exact absurd ((hws w hw).2 _ hmem) (by decide)
    · simp at hmem
  have hlast : ∀ c ∈ (leadingWords ws).getLast?.or none, isWordChar c = false := by
    intro c hc
    rw [Option.or_none] at hc
    rw [getLast?_leadingWords ws c hc]
    decide
  have hne : written ≠ [] := by
    rintro rfl
    exact h.unquote_ne_nil rfl
  have htrim : trimStart (spacedWords (written :: vs)) = written ++ spacedWords vs := by
    rw [spacedWords_eq (List.cons_ne_nil _ _), unwords_cons, trimStart_cons_blank (by decide),
      trimStart_append hne (trim_eq_self_iff.mp h.trim_eq).1]
  have hvalue : (unquote written).isEmpty = false := by simpa using h.unquote_ne_nil
  rw [unwords_append_cons, find?, splitKeyword?_append hfront hlast]
  simp only [Option.bind_eq_bind, Option.bind_some, htrim, h.splitValue_eq, hvalue, Bool.false_eq_true, if_false]

end InlineDefault

/-- The description that words give. -/
def described (ws : List (List Char)) : Option String :=
  if ws = [] then none else some (String.ofList (unwords ws))

namespace Candidate

/-- From words with a default value between them the value is read, and the words are the description. -/
theorem readInline_unwords {ws vs : List (List Char)} (hws : ∀ w ∈ ws, IsProse w) (hvs : ∀ w ∈ vs, IsProse w)
    {written : List Char} (h : InlineDefault.IsValue written (spacedWords vs)) (c : Candidate) :
    c.readInline (unwords (ws ++ "default:".toList :: written :: vs))
      = { c with
          flags := canonicalFlags c.flags
          defaultValue := c.defaultValue.or (some (String.ofList (unquote written)))
          description := c.description.or (described (ws ++ vs)) } := by
  have hprose : ∀ w ∈ ws ++ vs, IsProse w := fun w hw => (List.mem_append.mp hw).elim (hws w) (hvs w)
  have hfree : ∀ w ∈ ws ++ vs, w ≠ [] ∧ ∀ c ∈ w, isBlank c = false := fun w hw =>
    ⟨(hprose w hw).1, (hprose w hw).forall_isBlank⟩
  have hcollapse : collapse (leadingWords ws ++ ' ' :: spacedWords vs) = unwords (ws ++ vs) := by
    have hsplit : leadingWords ws ++ ' ' :: spacedWords vs = leadingWords ws ++ ([' '] ++ spacedWords vs) := rfl
    rw [collapse, hsplit, words_leadingWords_append fun w hw => hfree w (List.mem_append_left _ hw),
      words_append_spacedWords fun w hw => hfree w (List.mem_append_right _ hw)]
    rfl
  have hposition : Misses Marker.position none (leadingWords ws ++ ' ' :: spacedWords vs) [] :=
    Marker.misses_of_not_mem Marker.looksFor_positionDigits
      (not_mem_of_collapse hprose hcollapse (by decide) rfl) none
  have hrepetition : Misses Marker.repetition none (leadingWords ws ++ ' ' :: spacedWords vs) [] :=
    Marker.misses_of_not_mem Marker.looksFor_repetitionBounds
      (not_mem_of_collapse hprose hcollapse (by decide) rfl) none
  have hflag : Misses Marker.flag none (leadingWords ws ++ ' ' :: spacedWords vs) [] :=
    Marker.misses_flag (not_mem_of_collapse hprose hcollapse (by decide) rfl) none
  have hflags : allFound Marker.flag (leadingWords ws ++ ' ' :: spacedWords vs) = [] := by
    rw [allFound, segments_of_misses hflag, allFound_literals]
  rw [readInline, withDefault, InlineDefault.find?_unwords hws h]
  dsimp only
  rw [withPosition, firstFound?_of_misses hposition, replaceEach_of_misses hposition, withRepetition,
    firstFound?_of_misses hrepetition, replaceEach_of_misses hrepetition, withFlags, hflags,
    replaceEach_of_misses hflag, cleanDescription_of_collapse hprose hcollapse]
  simp [isEmpty_unwords_iff hprose, described]

section NoBlock

variable {ws vs : List (List Char)} {written : List Char}

/-- A parameter text that carries a default and has no blank at either end has nothing to trim. -/
theorem trim_unwords_default (hws : ∀ w ∈ ws, IsProse w) (hvs : ∀ w ∈ vs, IsProse w) (hne : written ≠ [])
    (htrim : trim written = written) :
    trim (unwords (ws ++ "default:".toList :: written :: vs))
      = unwords (ws ++ "default:".toList :: written :: vs) := by
  have hprose : ∀ us : List (List Char), (∀ w ∈ us, IsProse w) → ∀ w ∈ us, w ≠ [] ∧ trim w = w :=
    fun us hus w hw => ⟨(hus w hw).1, trim_of_forall_not_isBlank (hus w hw).forall_isBlank⟩
  have hwords : ∀ w ∈ ws ++ "default:".toList :: written :: vs, w ≠ [] ∧ trim w = w := by
    intro w hw
    rw [List.mem_append, List.mem_cons, List.mem_cons] at hw
    rcases hw with hw | rfl | rfl | hw
    · exact hprose ws hws w hw
    · decide
    · exact ⟨hne, htrim⟩
    · exact hprose vs hvs w hw
  exact trim_intercalate (fun w hw => (hwords w hw).1) fun w hw => (hwords w hw).2

/-- Such a text does not open with a bracket, so it has no block in front. -/
theorem head?_unwords_default (hws : ∀ w ∈ ws, IsProse w) :
    (unwords (ws ++ "default:".toList :: written :: vs)).head? ≠ some '(' := by
  intro hhead
  cases ws with
  | nil =>
    rw [List.nil_append, unwords_cons] at hhead
    exact absurd (Option.some.inj hhead) (by decide)
  | cons w ws =>
    obtain ⟨hne, halpha⟩ := hws w List.mem_cons_self
    obtain ⟨c, cs, rfl⟩ := List.exists_cons_of_ne_nil hne
    rw [List.cons_append, unwords_cons] at hhead
    have hc := halpha c List.mem_cons_self
    rw [Option.some.inj hhead] at hc
    exact absurd hc (by decide)

/-- Nor does it end with one, unless the value does. -/
theorem getLast?_unwords_default (hvs : ∀ w ∈ vs, IsProse w) (hne : written ≠ [])
    (hlast : vs = [] → written.getLast? ≠ some ')') :
    (unwords (ws ++ "default:".toList :: written :: vs)).getLast? ≠ some ')' := by
  rw [List.append_cons, unwords_append_cons]
  by_cases hempty : vs = []
  · have hend : written ++ spacedWords vs = written := by
      rw [hempty]
      exact List.append_nil written
    rw [hend, List.getLast?_append_of_ne_nil _ hne]
    exact hlast hempty
  · intro hparen
    have hclosing : ')' ∉ unwords vs := not_mem_unwords_of_isProse hvs (by decide) (by decide)
    rw [spacedWords_eq hempty, ← List.append_assoc, List.getLast?_append_of_ne_nil _ (List.cons_ne_nil _ _)]
      at hparen
    exact absurd (List.mem_of_mem_getLast? hparen) (by simpa using hclosing)

/-- A text of words and a default value that does not end with a parenthesis is read without a block. -/
theorem ofChars_unwords (hws : ∀ w ∈ ws, IsProse w) (hvs : ∀ w ∈ vs, IsProse w)
    (h : InlineDefault.IsValue written (spacedWords vs)) (hlast : vs = [] → written.getLast? ≠ some ')') :
    ofChars (unwords (ws ++ "default:".toList :: written :: vs))
      = { defaultValue := some (String.ofList (unquote written)), description := described (ws ++ vs) } := by
  have hne : written ≠ [] := by
    rintro rfl
    exact h.unquote_ne_nil rfl
  have htrim := trim_unwords_default hws hvs hne h.trim_eq
  have hblock : AttributeBlock.ofText? (unwords (ws ++ "default:".toList :: written :: vs)) = none := by
    rw [AttributeBlock.ofText?, htrim, AttributeBlock.leading?, AttributeBlock.trailing?,
      takeGroup?_eq_none (head?_unwords_default hws),
      takeGroupBack?_eq_none (getLast?_unwords_default hvs hne hlast)]
    rfl
  rw [ofChars, hblock]
  dsimp only
  rw [htrim, readInline_unwords hws hvs h]
  rfl

end NoBlock

/-! ## Values in quotes -/

/-- A value in quotes between words is read as it is, whatever stands in it. -/
theorem ofText_quotedDefault {ws vs : List (List Char)} (hws : ∀ w ∈ ws, IsProse w)
    (hvs : ∀ w ∈ vs, IsProse w) {value : List Char} (hne : value ≠ []) (hslash : '\\' ∉ value) :
    ofText (String.ofList (unwords (ws ++ "default:".toList :: quote value :: vs)))
      = { defaultValue := some (String.ofList value), description := described (ws ++ vs) } := by
  have hlast : (quote value).getLast? ≠ some ')' := by
    rw [quote, ← List.cons_append, List.getLast?_concat]
    decide
  rw [ofText, String.toList_ofList,
    ofChars_unwords hws hvs (InlineDefault.isValue_quote hne hslash _) fun _ => hlast, unquote_quote hslash]

/-- A value with markers, brackets and another default value in it. -/
theorem ofText_quotedDefault_markers :
    ofText "set default: \"@1 ...; --all, (default: \\\"y\\\") x\" now"
      = { defaultValue := some "@1 ...; --all, (default: \"y\") x", description := some "set now" } := by
  have htext : "set default: \"@1 ...; --all, (default: \\\"y\\\") x\" now"
      = String.ofList (unwords (["set".toList] ++
        "default:".toList :: quote "@1 ...; --all, (default: \"y\") x".toList :: ["now".toList])) := by
    decide +kernel
  rw [htext]
  exact ofText_quotedDefault (by decide) (by decide) (by decide) (by decide)

/-! ## Calls -/

section Calls

variable {ws vs : List (List Char)} {name args : List Char}

/-- A call at the end of the text is its name, at the end, and the brackets behind it. -/
theorem unwords_call (ws : List (List Char)) (name args : List Char) :
    unwords (ws ++ ["default:".toList, name ++ AttributeBlock.parenthesize args])
      = unwords (ws ++ ["default:".toList, name]) ++ '(' :: (args ++ [')']) := by
  rw [List.append_cons, unwords_append_cons, List.append_cons ws _ [name], unwords_append_cons]
  simp [spacedWords, AttributeBlock.parenthesize]

/-- A call with words behind it is read as it is. -/
theorem ofChars_call (hws : ∀ w ∈ ws, IsProse w) (hvs : ∀ w ∈ vs, IsProse w)
    (hname : InlineDefault.IsCallee name) (hargs : IsMatched args) (hne : vs ≠ []) :
    ofChars (unwords (ws ++ "default:".toList :: (name ++ AttributeBlock.parenthesize args) :: vs))
      = { defaultValue := some (String.ofList (name ++ AttributeBlock.parenthesize args))
          description := described (ws ++ vs) } := by
  have hvalue := hname.isValue_append hargs (head?_spacedWords vs)
  rw [ofChars_unwords hws hvs hvalue fun hnil => absurd hnil hne, hname.unquote_append]

/-- The arguments of a call that stands last are read as an attribute block. -/
theorem ofChars_lastCall (hws : ∀ w ∈ ws, IsProse w) (hname : InlineDefault.IsCallee name)
    (hargs : IsMatched args) (hquote : '"' ∉ args) :
    ofChars (unwords (ws ++ ["default:".toList, name ++ AttributeBlock.parenthesize args]))
      = { readAttributes (trim args) {} with
          defaultValue := (readAttributes (trim args) {}).defaultValue.or (some (String.ofList name))
          description := described ws } := by
  have htrim : trim (unwords (ws ++ ["default:".toList, name ++ AttributeBlock.parenthesize args]))
      = unwords (ws ++ ["default:".toList, name ++ AttributeBlock.parenthesize args]) :=
    trim_unwords_default hws (List.forall_mem_nil _) (List.append_ne_nil_of_left_ne_nil hname.1 _)
      (hname.trim_append args)
  have hcollapse : collapse (unwords (ws ++ ["default:".toList, name]))
      = unwords (ws ++ ["default:".toList, name]) := by
    refine collapse_unwords fun w hw => ?_
    rw [List.mem_append, List.mem_cons, List.mem_singleton] at hw
    rcases hw with hw | rfl | rfl
    · exact ⟨(hws w hw).1, (hws w hw).forall_isBlank⟩
    · exact ⟨by decide, List.all_iff_forall_prop.mp (by decide)⟩
    · exact ⟨hname.1, hname.forall_isBlank⟩
  have hblock : AttributeBlock.ofText?
      (unwords (ws ++ ["default:".toList, name ++ AttributeBlock.parenthesize args]))
        = some ⟨trim args, unwords (ws ++ ["default:".toList, name])⟩ := by
    rw [AttributeBlock.ofText?, htrim, AttributeBlock.leading?, takeGroup?_eq_none (head?_unwords_default hws),
      AttributeBlock.trailing?, unwords_call, takeGroupBack?_eq_some_iff.mpr ((isGroup_iff_isMatched hquote).mpr hargs),
      Option.map_none, Option.none_or, Option.map_some]
    dsimp only
    rw [hcollapse]
  have hvalue : InlineDefault.IsValue name (spacedWords []) := hname.isValue (by simp [spacedWords])
  rw [ofChars, hblock]
  dsimp only
  rw [readInline_unwords hws (List.forall_mem_nil _) hvalue, readAttributes_flags, readAttributes_description,
    hname.unquote_eq, List.append_nil]
  rfl

/-- A call between words is read as it is exactly if words follow it.  Where it stands last, its arguments are
taken for an attribute block. -/
theorem ofText_calledDefault (hws : ∀ w ∈ ws, IsProse w) (hvs : ∀ w ∈ vs, IsProse w)
    (hname : InlineDefault.IsCallee name) (hargs : IsMatched args) (hquote : '"' ∉ args) :
    let call := name ++ AttributeBlock.parenthesize args
    let read := ofText (String.ofList (unwords (ws ++ "default:".toList :: call :: vs)))
    (vs ≠ [] → read = { defaultValue := some (String.ofList call), description := described (ws ++ vs) }) ∧
      (vs = [] → read = { readAttributes (trim args) {} with
        defaultValue := (readAttributes (trim args) {}).defaultValue.or (some (String.ofList name))
        description := described ws }) ∧
      (read.defaultValue = some (String.ofList call) ↔ vs ≠ []) := by
  intro call read
  have hread : read = ofChars (unwords (ws ++ "default:".toList :: call :: vs)) := by
    simp only [read, ofText, String.toList_ofList]
  have hkept : vs ≠ [] →
      read = { defaultValue := some (String.ofList call), description := described (ws ++ vs) } := by
    intro hne
    rw [hread]
    exact ofChars_call hws hvs hname hargs hne
  have hlost : vs = [] → read = { readAttributes (trim args) {} with
      defaultValue := (readAttributes (trim args) {}).defaultValue.or (some (String.ofList name))
      description := described ws } := by
    rintro rfl
    rw [hread]
    exact ofChars_lastCall hws hname hargs hquote
  refine ⟨hkept, hlost, ?_, fun hne => by rw [hkept hne]⟩
  -- The default value is part of the arguments or the name, so it is shorter than the call.
  rintro hdefault hnil
  rw [hlost hnil] at hdefault
  rcases Option.or_eq_some_iff.mp hdefault with hgiven | ⟨-, hgiven⟩
  · have hlength := (sublist_of_readAttributes hgiven).length_le.trans (trim_sublist args).length_le
    simp [call, AttributeBlock.parenthesize] at hlength
    omega
  · have hlength := congrArg String.length (Option.some.inj hgiven)
    simp [call, AttributeBlock.parenthesize] at hlength

/-- A call with words behind it, and one without. -/
theorem ofText_calledDefault_now :
    ofText "from default: time.now(a, (b)) on"
        = { defaultValue := some "time.now(a, (b))", description := some "from on" } ∧
      (ofText "default: foo()").defaultValue ≠ some "foo()" := by
  have hfollowed : "from default: time.now(a, (b)) on" = String.ofList (unwords (["from".toList] ++
      "default:".toList :: ("time.now".toList ++ AttributeBlock.parenthesize "a, (b)".toList) ::
        ["on".toList])) := by decide +kernel
  have hlast : "default: foo()" = String.ofList (unwords ([] ++
      "default:".toList :: ("foo".toList ++ AttributeBlock.parenthesize []) :: [])) := by decide +kernel
  constructor
  · rw [hfollowed]
    exact (ofText_calledDefault (by decide) (by decide) (by decide) (by decide) (by decide)).1 (by decide)
  · rw [hlast]
    intro hread
    exact (ofText_calledDefault (by decide) (by decide) (by decide) (by decide) (by decide)).2.2.mp hread rfl

end Calls

end Candidate

end CommandDoc
