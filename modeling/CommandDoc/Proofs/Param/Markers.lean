import CommandDoc.Param.Markers
import CommandDoc.Proofs.Name.Identifier
import CommandDoc.Proofs.Text.Blank
import CommandDoc.Proofs.Text.Occurrence

/-!
# Markers between words

A marker that stands between words is found once and leaves a space behind, and the words on both sides stay
apart.  So the markers of a text can be taken out one kind after another, each from what the one before it
left.

Main definitions:

- `Apart`: words in front of a gap and words behind it.

Main results:

- Theorem `Apart.take`: a marker is taken out of the words between which it stands.
- Theorems `positionDigits_append` and `repetitionBounds_append`: how both markers are read.
- Theorems `found_flags` and `Apart.flags`: all flags in front of other words are found, and only their commas
  and the words are left.
-/

namespace CommandDoc

open Text

/-! ## Words on both sides of a gap -/

/-- A text consists of some words, a gap and more words; without a gap there are words on one side only. -/
def Apart (front back : List (List Char)) (cs : List Char) : Prop :=
  ∃ n, cs = unwords front ++ (List.replicate n ' ' ++ unwords back) ∧ (front = [] ∨ back = [] ∨ n ≠ 0)

/-- Words written with single spaces stand apart. -/
theorem apart_unwords (front back : List (List Char)) : Apart front back (unwords (front ++ back)) := by
  by_cases hfront : front = []
  · exact ⟨0, by rw [hfront]; rfl, Or.inl hfront⟩
  · by_cases hback : back = []
    · exact ⟨0, by rw [hback, List.append_nil]; exact (List.append_nil _).symm, Or.inr (Or.inl hback)⟩
    · exact ⟨1, unwords_append hfront hback, Or.inr (Or.inr (by decide))⟩

/-- A sign that none of the words holds is nowhere in the text. -/
theorem Apart.not_mem {c : Char} (hc : c ≠ ' ') {front back : List (List Char)} {cs : List Char}
    (h : Apart front back cs) (hfront : ∀ w ∈ front, c ∉ w) (hback : ∀ w ∈ back, c ∉ w) : c ∉ cs := by
  obtain ⟨n, rfl, -⟩ := h
  rw [List.mem_append, List.mem_append, not_or, not_or]
  exact ⟨not_mem_unwords hc hfront, fun h => hc (List.eq_of_mem_replicate h), not_mem_unwords hc hback⟩

namespace Marker

/-! ## Numbers -/

/-- A number can be read back from its digits. -/
theorem number?_toString (n : UInt32) : number? (toString n.toNat).toList = some n := by
  have hvalue : Decimal.digitsValue? 10 (toString n.toNat).toList = some n.toNat := by
    rw [Nat.toString_eq_repr, Nat.toList_repr, Decimal.digitsValue?_toDigits]
  rw [number?, hvalue]
  simp only [show n.toNat < 4294967296 from n.toNat_lt, if_true, UInt32.ofNat_toNat]

/-! ## Taking a marker out -/

/-- A reading succeeds only if it meets a sign before the next space. -/
def LooksFor {α : Type} (sign : Char) (inner : List Char → Option α) : Prop :=
  ∀ xs ys, sign ∉ xs → (∀ c ∈ ys.head?, c = ' ') → inner (xs ++ ys) = none

section AfterBlank

variable {α : Type} {sign : Char} {inner : List Char → Option (α × Nat)}

/-- At the start of the text a marker needs no blank before it. -/
theorem afterBlank_none {cs : List Char} {found : α × Nat} (h : inner cs = some found) :
    afterBlank inner none cs = some found := by
  simp [afterBlank, h]

/-- A marker behind a space is found at the space, and takes it along. -/
theorem afterBlank_space {before : Option Char} {cs : List Char} {found : α} {length : Nat}
    (hspace : inner (' ' :: cs) = none) (h : inner cs = some (found, length)) :
    afterBlank inner before (' ' :: cs) = some (found, length + 1) := by
  have hblank : isBlank ' ' = true := by decide
  simp [afterBlank, hspace, h, hblank]

/-- Text without the sign of a marker is passed over, up to a space or the end. -/
theorem misses_of_looksFor (hinner : LooksFor sign inner) {before : Option Char} {xs ys : List Char}
    (hxs : sign ∉ xs) (hys : ∀ c ∈ ys.head?, c = ' ') : Misses (afterBlank inner) before xs ys := by
  refine misses_of_forall_suffix inner ?_ fun zs hzs =>
    hinner zs ys (fun h => hxs (hzs.subset h)) hys
  intro before c rest hhere hrest
  simp [afterBlank, hhere, hrest]

/-- A marker that needs its sign does not occur without it. -/
theorem misses_of_not_mem (hinner : LooksFor sign inner) {xs : List Char} (hxs : sign ∉ xs)
    (before : Option Char) : Misses (afterBlank inner) before xs [] :=
  misses_of_looksFor hinner hxs (by nofun)

/-- A marker is taken out of the words between which it stands. -/
theorem Apart.take (hinner : LooksFor sign inner) (hsign : sign ≠ ' ') {front back : List (List Char)}
    {marker taken cs : List Char} {found : α} {n : Nat} (h : Apart front (marker :: back) cs)
    (hfront : ∀ w ∈ front, sign ∉ w) (hback : ∀ w ∈ back, sign ∉ w) (hne : marker ≠ [])
    (hbehind : spacedWords back = taken ++ (List.replicate n ' ' ++ unwords back))
    (hmarker : inner (marker ++ spacedWords back) = some (found, (marker ++ taken).length)) :
    firstFound? (afterBlank inner) cs = some found ∧
      Apart front back (replaceEach (afterBlank inner) (fun _ => [' ']) cs) := by
  obtain ⟨gap, rfl, hgap⟩ := h
  have hleft : sign ∉ List.replicate n ' ' ++ unwords back := by
    rw [List.mem_append, not_or]
    exact ⟨fun h => hsign (List.eq_of_mem_replicate h), not_mem_unwords hsign hback⟩
  rw [hbehind, ← List.append_assoc] at hmarker
  rw [unwords_cons, hbehind, ← List.append_assoc marker]
  -- Without a gap the marker stands at the start, and otherwise the last space of the gap belongs to it.
  cases gap with
  | zero =>
    have hempty : front = [] := by simpa using hgap
    have hstart : ∀ xs, unwords [] ++ (List.replicate 0 ' ' ++ xs) = [] ++ xs := fun _ => rfl
    rw [hempty, hstart]
    have hread := segments_of_hit [] (marker ++ taken) (by simp [hne]) trivial (afterBlank_none hmarker)
      (misses_of_not_mem hinner hleft _)
    exact ⟨firstFound?_of_hit hread, n + 1, replaceEach_of_hit hread, Or.inl rfl⟩
  | succ gap =>
    have hsplit : unwords front ++ (List.replicate (gap + 1) ' ' ++
        (marker ++ taken ++ (List.replicate n ' ' ++ unwords back)))
        = (unwords front ++ List.replicate gap ' ') ++ ((' ' :: (marker ++ taken)) ++
          (List.replicate n ' ' ++ unwords back)) := by
      rw [List.replicate_succ']
      simp
    have hspace : ∀ xs, inner (' ' :: xs) = none := fun xs =>
      hinner [] (' ' :: xs) List.not_mem_nil fun _ h => (Option.some.inj h).symm
    have hbefore : sign ∉ unwords front ++ List.replicate gap ' ' := by
      rw [List.mem_append, not_or]
      exact ⟨not_mem_unwords hsign hfront, fun h => hsign (List.eq_of_mem_replicate h)⟩
    have hread := segments_of_hit _ (' ' :: (marker ++ taken)) (List.cons_ne_nil _ _)
      (misses_of_looksFor hinner hbefore fun _ h => (Option.some.inj h).symm)
      (afterBlank_space (hspace _) hmarker) (misses_of_not_mem hinner hleft _)
    rw [hsplit]
    refine ⟨firstFound?_of_hit hread, gap + 1 + n, ?_, Or.inr (Or.inr (by omega))⟩
    rw [replaceEach_of_hit hread, List.replicate_add, List.replicate_succ']
    simp

end AfterBlank

/-! ## Positions -/

/-- The ten digits are decimal digits. -/
theorem isDecimalDigit_of_isDigit {c : Char} (h : c.isDigit = true) : isDecimalDigit c = true := by
  have hsmall : c.toNat < 0x80 := by
    simp only [Char.isDigit, Bool.and_eq_true, decide_eq_true_eq, UInt32.le_iff_toNat_le] at h
    exact Nat.lt_of_le_of_lt h.2 (by decide)
  rw [isDecimalDigit, if_pos hsmall, h]

section Digits

variable {digits rest : List Char}

/-- Digits are read up to the first character that is none. -/
theorem takeWhile_digits (hdigits : ∀ c ∈ digits, c.isDigit = true)
    (hrest : ∀ c ∈ rest.head?, isDecimalDigit c = false) :
    (digits ++ rest).takeWhile isDecimalDigit = digits :=
  takeWhile_append_of_head? (fun c hc => isDecimalDigit_of_isDigit (hdigits c hc)) hrest

/-- What is left behind digits is what follows them. -/
theorem dropWhile_digits (hdigits : ∀ c ∈ digits, c.isDigit = true)
    (hrest : ∀ c ∈ rest.head?, isDecimalDigit c = false) :
    (digits ++ rest).dropWhile isDecimalDigit = rest :=
  dropWhile_append_of_head? (fun c hc => isDecimalDigit_of_isDigit (hdigits c hc)) hrest

/-- What starts with a space starts with no digit. -/
theorem isDecimalDigit_head?_of_space (hrest : ∀ c ∈ rest.head?, c = ' ') :
    ∀ c ∈ rest.head?, isDecimalDigit c = false := by
  intro c hc
  rw [hrest c hc]
  decide

end Digits

/-- A position starts with its sign. -/
theorem looksFor_positionDigits : LooksFor '@' positionDigits := by
  intro xs ys hxs hys
  cases xs with
  | nil =>
    cases ys with
    | nil => rfl
    | cons c ys => rw [hys c rfl]; rfl
  | cons c xs =>
    have hc : '@' ≠ c := fun h => hxs (by rw [h]; exact List.mem_cons_self)
    rw [List.cons_append, positionDigits]
    rintro rest h
    exact hc (List.cons.inj h).1.symm

/-- A position is read up to the next space. -/
theorem positionDigits_append {digits rest : List Char} (hne : digits ≠ [])
    (hdigits : ∀ c ∈ digits, c.isDigit = true) (hrest : ∀ c ∈ rest.head?, c = ' ') :
    positionDigits ('@' :: digits ++ rest) = some (digits, ('@' :: digits).length) := by
  have hstop := isDecimalDigit_head?_of_space hrest
  rw [List.cons_append, positionDigits, takeWhile_digits hdigits hstop, dropWhile_digits hdigits hstop]
  cases rest with
  | nil => simp [hne]
  | cons c rest =>
    have hspace : isWordChar ' ' = false := by decide
    simp [hne, hrest c rfl, hspace]

/-- The position is taken out of the words between which it stands. -/
theorem Apart.position {front back : List (List Char)} {digits cs : List Char}
    (h : Apart front (('@' :: digits) :: back) cs) (hne : digits ≠ [])
    (hdigits : ∀ c ∈ digits, c.isDigit = true) (hfront : ∀ w ∈ front, '@' ∉ w)
    (hback : ∀ w ∈ back, '@' ∉ w) :
    firstFound? position cs = some digits ∧
      Apart front back (replaceEach position (fun _ => [' ']) cs) := by
  have hmarker := positionDigits_append hne hdigits (head?_spacedWords back)
  rw [← List.append_nil ('@' :: digits), List.append_assoc, List.nil_append] at hmarker
  by_cases hempty : back = []
  · exact Apart.take looksFor_positionDigits (by decide) (n := 0) h hfront hback (List.cons_ne_nil _ _)
      (by rw [hempty]; rfl) hmarker
  · exact Apart.take looksFor_positionDigits (by decide) (n := 1) h hfront hback (List.cons_ne_nil _ _)
      (spacedWords_eq hempty) hmarker

/-! ## Repetitions -/

/-- A repetition starts with its dots. -/
theorem looksFor_repetitionBounds : LooksFor '.' repetitionBounds := by
  intro xs ys hxs hys
  have hdot : ∀ rest, (xs ++ ys).dropWhile isDecimalDigit ≠ '.' :: rest := by
    intro rest h
    induction xs with
    | nil =>
      cases ys with
      | nil => cases h
      | cons c ys =>
        rw [hys c rfl] at h
        cases h
    | cons c xs ih =>
      rw [List.mem_cons, not_or] at hxs
      rw [List.cons_append] at h
      by_cases hc : isDecimalDigit c = true
      · exact ih hxs.2 (by rwa [List.dropWhile_cons_of_pos hc] at h)
      · rw [List.dropWhile_cons_of_neg hc] at h
        exact hxs.1 (List.cons.inj h).1.symm
  rw [repetitionBounds]
  split
  · next rest h => exact absurd h (hdot _)
  · rfl

/-- A repetition is read with the space behind it. -/
theorem repetitionBounds_append {least greatest rest : List Char} (hleast : ∀ c ∈ least, c.isDigit = true)
    (hgreatest : ∀ c ∈ greatest, c.isDigit = true) (hrest : ∀ c ∈ rest.head?, c = ' ') :
    repetitionBounds (least ++ "...".toList ++ greatest ++ rest)
      = some ((least, greatest), (least ++ "...".toList ++ greatest ++ rest.take 1).length) := by
  have hdots : ∀ c ∈ ("...".toList ++ (greatest ++ rest)).head?, isDecimalDigit c = false := by
    intro c hc
    rw [← Option.some.inj hc]
    decide
  have hstop := isDecimalDigit_head?_of_space hrest
  have hnext : "...".toList ++ (greatest ++ rest) = '.' :: '.' :: '.' :: (greatest ++ rest) := rfl
  rw [List.append_assoc, List.append_assoc, repetitionBounds, takeWhile_digits hleast hdots,
    dropWhile_digits hleast hdots, hnext]
  simp only [takeWhile_digits hgreatest hstop, dropWhile_digits hgreatest hstop]
  cases rest with
  | nil =>
    simp
    omega
  | cons c rest =>
    have hspace : isBlank ' ' = true := by decide
    simp [hrest c rfl, hspace]
    omega

/-- The repetition is taken out of the words between which it stands. -/
theorem Apart.repetition {front back : List (List Char)} {least greatest cs : List Char}
    (h : Apart front ((least ++ "...".toList ++ greatest) :: back) cs)
    (hleast : ∀ c ∈ least, c.isDigit = true) (hgreatest : ∀ c ∈ greatest, c.isDigit = true)
    (hfront : ∀ w ∈ front, '.' ∉ w) (hback : ∀ w ∈ back, '.' ∉ w) :
    firstFound? repetition cs = some (least, greatest) ∧
      Apart front back (replaceEach repetition (fun _ => [' ']) cs) := by
  have hbehind : spacedWords back = (spacedWords back).take 1 ++ (List.replicate 0 ' ' ++ unwords back) := by
    by_cases hempty : back = []
    · rw [hempty]
      rfl
    · rw [spacedWords_eq hempty]
      rfl
  exact Apart.take looksFor_repetitionBounds (by decide) h hfront hback (by simp) hbehind
    (repetitionBounds_append hleast hgreatest (head?_spacedWords back))

/-! ## Flags -/

/-- The names of flags: ASCII letters, digits, underscores and dashes, without a dash or an underscore in
front. -/
structure IsFlagName (name : List Char) : Prop where
  /-- There is a first character, which is a letter or a digit. -/
  starts_isAlphanum : ∃ c rest, name = c :: rest ∧ c.isAlphanum = true
  /-- No character is anything else. -/
  forall_mem : ∀ c ∈ name, c.isAlphanum = true ∨ c = '_' ∨ c = '-'

/-- Being the name of a flag is decided by its characters. -/
theorem isFlagName_iff {name : List Char} :
    IsFlagName name ↔ name.head?.any Char.isAlphanum = true ∧
      (name.all fun c => c.isAlphanum = true ∨ c = '_' ∨ c = '-') = true := by
  rw [List.all_eq_true]
  simp only [decide_eq_true_eq]
  constructor
  · rintro ⟨⟨c, rest, rfl, hc⟩, hname⟩
    exact ⟨hc, hname⟩
  · rintro ⟨hstart, hname⟩
    cases name with
    | nil => cases hstart
    | cons c rest => exact ⟨⟨c, rest, rfl, hstart⟩, hname⟩

instance : DecidablePred IsFlagName := fun _ => decidable_of_iff _ isFlagName_iff.symm

/-- A flag as it is written: a name behind one dash or two. -/
structure WrittenFlag where
  /-- Whether there are two dashes. -/
  doubled : Bool
  /-- The name. -/
  name : List Char
  deriving Repr, DecidableEq

/-- The characters of a written flag. -/
def WrittenFlag.chars (written : WrittenFlag) : List Char :=
  if written.doubled then '-' :: '-' :: written.name else '-' :: written.name

/-- A flag's name behind two dashes. -/
def dashed (name : List Char) : List Char :=
  '-' :: '-' :: name

/-- A comma, or nothing. -/
def optionalComma (comma : Bool) : List Char :=
  if comma then [','] else []

/-- A written flag with a comma behind it, or without one. -/
def flagWord (entry : WrittenFlag × Bool) : List Char :=
  entry.1.chars ++ optionalComma entry.2

/-- Letters and digits are word characters. -/
theorem isWordChar_of_isAlphanum {c : Char} (h : c.isAlphanum = true) : isWordChar c = true := by
  have hsmall : c.toNat < 0x80 := by
    unfold Char.isAlphanum Char.isAlpha Char.isUpper Char.isLower Char.isDigit at h
    simp only [Bool.or_eq_true, Bool.and_eq_true, decide_eq_true_eq, UInt32.le_iff_toNat_le] at h
    rcases h with (⟨_, h⟩ | ⟨_, h⟩) | ⟨_, h⟩ <;> exact Nat.lt_of_le_of_lt h (by decide)
  rw [isWordChar, if_pos hsmall, isAsciiWordChar, h, Bool.true_or]

/-- The name of a flag is read up to the space or the comma behind it. -/
theorem flagName?_append {name rest : List Char} (hname : IsFlagName name)
    (hrest : ∀ c ∈ rest.head?, c = ' ' ∨ c = ',') : flagName? (name ++ rest) = some name := by
  obtain ⟨c, cs, rfl, hc⟩ := hname.starts_isAlphanum
  have hmore : ∀ d ∈ cs, (isWordChar d || d == '-') = true := by
    intro d hd
    rcases hname.forall_mem d (List.mem_cons_of_mem _ hd) with halphanum | rfl | rfl
    · rw [isWordChar_of_isAlphanum halphanum, Bool.true_or]
    · decide
    · decide
  have hstop : ∀ d ∈ rest.head?, (isWordChar d || d == '-') = false := by
    intro d hd
    rcases hrest d hd with rfl | rfl
    · decide
    · decide
  rw [List.cons_append, flagName?, if_pos hc, takeWhile_append_of_head? hmore hstop]

/-- A written flag is read up to the next space or comma. -/
theorem dashedName_append {written : WrittenFlag} (hname : IsFlagName written.name) {rest : List Char}
    (hrest : ∀ c ∈ rest.head?, c = ' ' ∨ c = ',') :
    dashedName (written.chars ++ rest) = some (written.name, written.chars.length) := by
  obtain ⟨doubled, name⟩ := written
  have hread := flagName?_append hname hrest
  cases doubled with
  | true => simp [WrittenFlag.chars, dashedName, hread]
  | false =>
    -- A name does not start with a dash, so a single dash is not read as two.
    have hdash : ∀ cs, name ++ rest ≠ '-' :: cs := by
      obtain ⟨c, cs, rfl, hc⟩ := hname.starts_isAlphanum
      rintro _ heq
      rw [(List.cons.inj heq).1] at hc
      cases hc
    have hsingle : dashedName ('-' :: (name ++ rest)) = some (name, name.length + 1) := by
      rw [dashedName, hread, Option.map_some]
      exact hdash
    simpa [WrittenFlag.chars] using hsingle

/-- What does not start with a dash names no flag. -/
theorem dashedName_of_ne {c : Char} (hc : c ≠ '-') (cs : List Char) : dashedName (c :: cs) = none := by
  rw [dashedName]
  · rintro _ heq
    exact hc (List.cons.inj heq).1
  · rintro _ heq
    exact hc (List.cons.inj heq).1

/-- A flag starts with its dash. -/
theorem looksFor_dashedName : LooksFor '-' dashedName := by
  intro xs ys hxs hys
  have hdash : ∀ rest, xs ++ ys ≠ '-' :: rest := by
    intro rest h
    cases xs with
    | nil =>
      rw [List.nil_append] at h
      rw [h] at hys
      exact absurd (hys '-' rfl) (by decide)
    | cons c xs => exact hxs (by rw [(List.cons.inj h).1]; exact List.mem_cons_self)
  rw [dashedName]
  · exact fun rest h => hdash _ h
  · exact hdash

/-- Text without a dash names no flag. -/
theorem misses_flag {xs : List Char} (hxs : '-' ∉ xs) (before : Option Char) : Misses flag before xs [] := by
  refine misses_of_forall_suffix dashedName ?_ fun zs hzs =>
    looksFor_dashedName zs [] (fun h => hxs (hzs.subset h)) (by nofun)
  intro before c rest hhere hrest
  simp [flag, hhere, hrest]

/-- Words that each bring their own space start with a space, or are not there at all. -/
theorem head?_spacedWords_append (ws : List (List Char)) {rest : List Char}
    (hrest : ∀ c ∈ rest.head?, c = ' ') : ∀ c ∈ (spacedWords ws ++ rest).head?, c = ' ' := by
  cases ws with
  | nil => exact hrest
  | cons w ws => exact fun _ h => (Option.some.inj h).symm

/-- What follows the name of a written flag is a comma or a space. -/
theorem head?_optionalComma_append (comma : Bool) {rest : List Char} (hrest : ∀ c ∈ rest.head?, c = ' ') :
    ∀ c ∈ (optionalComma comma ++ rest).head?, c = ' ' ∨ c = ',' := by
  cases comma with
  | false => exact fun c hc => Or.inl (hrest c hc)
  | true => exact fun _ h => Or.inr (Option.some.inj h).symm

/-- A comma behind a flag is no part of the flag behind it. -/
theorem segmentsFrom_optionalComma (comma : Bool) {before : Option Char} (hbefore : before.isSome = true)
    {rest : List Char} (hrest : ∀ c ∈ rest.head?, c = ' ') :
    ∃ other, other.isSome = true ∧ segmentsFrom flag 0 before (optionalComma comma ++ rest)
      = (optionalComma comma).map .literal ++ segmentsFrom flag 0 other rest := by
  cases comma with
  | false => exact ⟨before, hbefore, rfl⟩
  | true =>
    have hnone : dashedName rest = none :=
      looksFor_dashedName [] rest List.not_mem_nil hrest
    have hcomma : flag before (',' :: rest) = none := by
      simp [flag, hnone, dashedName_of_ne]
    refine ⟨some ',', rfl, ?_⟩
    simp [optionalComma, segmentsFrom, hcomma]

/-- Flags with a space in front of each and perhaps a comma behind it, and other words behind them. -/
theorem segmentsFrom_flags {entries : List (WrittenFlag × Bool)}
    (hnames : ∀ entry ∈ entries, IsFlagName entry.1.name) {rest : List Char} (hrest : '-' ∉ rest)
    (hhead : ∀ c ∈ rest.head?, c = ' ') (before : Option Char) :
    segmentsFrom flag 0 before (spacedWords (entries.map flagWord) ++ rest)
      = entries.flatMap (fun entry =>
          .hit (some ' ', entry.1.name) :: (optionalComma entry.2).map .literal) ++ rest.map .literal := by
  -- The space in front of a flag belongs to it, so what is left behind one flag starts with a space again.
  induction entries generalizing before with
  | nil =>
    have hread := segmentsFrom_append_of_misses (misses_flag hrest before)
    rw [List.append_nil] at hread
    exact hread.trans (by rw [segmentsFrom, List.append_nil]; rfl)
  | cons entry entries ih =>
    have hbehind := head?_spacedWords_append (entries.map flagWord) hhead
    have hname := dashedName_append (hnames entry List.mem_cons_self)
      (head?_optionalComma_append entry.2 hbehind)
    have hflag : flag before ((' ' :: entry.1.chars)
        ++ (optionalComma entry.2 ++ (spacedWords (entries.map flagWord) ++ rest)))
        = some ((some ' ', entry.1.name), (' ' :: entry.1.chars).length) := by
      have hlead : isFlagLead ' ' = true := by decide
      simp [flag, hlead, hname, dashedName_of_ne]
    have hsplit : spacedWords ((entry :: entries).map flagWord) ++ rest
        = (' ' :: entry.1.chars)
          ++ (optionalComma entry.2 ++ (spacedWords (entries.map flagWord) ++ rest)) := by
      simp [spacedWords, flagWord]
    have hlast : (' ' :: entry.1.chars).getLast?.isSome = true := by simp
    obtain ⟨other, -, hcomma⟩ := segmentsFrom_optionalComma entry.2 hlast hbehind
    rw [hsplit, segmentsFrom_append_of_hit _ (List.cons_ne_nil _ _) hflag, hcomma,
      ih (fun other hother => hnames other (List.mem_cons_of_mem _ hother)) other]
    simp

/-- How a text with flags in front is read: the first flag stands at its start, the others behind spaces. -/
theorem segments_flags {entry : WrittenFlag × Bool} {entries : List (WrittenFlag × Bool)}
    (hnames : ∀ other ∈ entry :: entries, IsFlagName other.1.name) {rest : List Char} (hrest : '-' ∉ rest)
    (hhead : ∀ c ∈ rest.head?, c = ' ') :
    segments flag (unwords ((entry :: entries).map flagWord) ++ rest)
      = .hit (none, entry.1.name) :: ((optionalComma entry.2).map .literal
          ++ (entries.flatMap (fun other =>
            .hit (some ' ', other.1.name) :: (optionalComma other.2).map .literal)
              ++ rest.map .literal)) := by
  have hbehind := head?_spacedWords_append (entries.map flagWord) hhead
  have hname := dashedName_append (hnames entry List.mem_cons_self)
    (head?_optionalComma_append entry.2 hbehind)
  have hflag : flag none (entry.1.chars
      ++ (optionalComma entry.2 ++ (spacedWords (entries.map flagWord) ++ rest)))
      = some ((none, entry.1.name), entry.1.chars.length) := by
    simp [flag, hname]
  have hne : entry.1.chars ≠ [] := by
    rw [WrittenFlag.chars]
    split
    · exact List.cons_ne_nil _ _
    · exact List.cons_ne_nil _ _
  have hlast : entry.1.chars.getLast?.isSome = true := by simp [hne]
  obtain ⟨other, -, hcomma⟩ := segmentsFrom_optionalComma entry.2 hlast hbehind
  rw [List.map_cons, unwords_cons, flagWord, List.append_assoc, List.append_assoc, segments,
    segmentsFrom_append_of_hit _ hne hflag, hcomma,
    segmentsFrom_flags (fun other hother => hnames other (List.mem_cons_of_mem _ hother)) hrest hhead]

/-- All flags in front of other words are found, and their commas and the spaces between them are left. -/
theorem found_flags {entry : WrittenFlag × Bool} {entries : List (WrittenFlag × Bool)}
    (hnames : ∀ other ∈ entry :: entries, IsFlagName other.1.name) {rest : List Char} (hrest : '-' ∉ rest)
    (hhead : ∀ c ∈ rest.head?, c = ' ') :
    (allFound flag (unwords ((entry :: entries).map flagWord) ++ rest)).map (·.2)
        = (entry :: entries).map (·.1.name) ∧
      replaceEach flag (fun found => found.1.toList) (unwords ((entry :: entries).map flagWord) ++ rest)
        = optionalComma entry.2 ++ (entries.flatMap (fun other => ' ' :: optionalComma other.2) ++ rest) := by
  have hread := segments_flags hnames hrest hhead
  constructor
  · have hfound : ∀ other : WrittenFlag × Bool,
        (Segment.hit (some ' ', other.1.name) :: (optionalComma other.2).map .literal).filterMap
          Segment.found? = [(some ' ', other.1.name)] := by
      intro other
      rw [List.filterMap_cons, allFound_literals]
      rfl
    rw [allFound, hread, List.filterMap_cons, List.filterMap_append, List.filterMap_append,
      List.filterMap_flatMap, allFound_literals, allFound_literals]
    simp [hfound, Segment.found?, ← List.map_eq_flatMap]
  · rw [replaceEach, hread]
    simp [List.flatMap_assoc, flatMap_literals]

/-- All flags in front of other words are found, and only the words are left. -/
theorem Apart.flags {names back : List (List Char)} {cs : List Char} (h : Apart (names.map dashed) back cs)
    (hnames : ∀ name ∈ names, IsFlagName name) (hback : ∀ w ∈ back, '-' ∉ w) :
    (allFound flag cs).map (·.2) = names ∧
      ∃ n, replaceEach flag (fun found => found.1.toList) cs = List.replicate n ' ' ++ unwords back := by
  obtain ⟨n, rfl, hgap⟩ := h
  have hrest : '-' ∉ List.replicate n ' ' ++ unwords back := by
    rw [List.mem_append, not_or]
    exact ⟨fun h => absurd (List.eq_of_mem_replicate h) (by decide), not_mem_unwords (by decide) hback⟩
  cases names with
  | nil =>
    have hmisses := misses_flag hrest none
    refine ⟨?_, n, replaceEach_of_misses hmisses⟩
    rw [allFound]
    exact congrArg (List.map _) ((congrArg _ (segments_of_misses hmisses)).trans (allFound_literals _))
  | cons name names =>
    have hhead : ∀ c ∈ (List.replicate n ' ' ++ unwords back).head?, c = ' ' := by
      cases n with
      | zero =>
        have hempty : back = [] := by simpa using hgap
        rw [hempty]
        intro _ h
        cases h
      | succ n => exact fun _ h => (Option.some.inj h).symm
    have hwords : (name :: names).map dashed
        = ((name :: names).map fun name => (⟨true, name⟩, false)).map flagWord := by
      simp [flagWord, WrittenFlag.chars, optionalComma, dashed, Function.comp_def]
    have hentries : ∀ other ∈ ((⟨true, name⟩, false) : WrittenFlag × Bool) ::
        names.map fun name => (⟨true, name⟩, false), IsFlagName other.1.name := by
      simpa using hnames
    obtain ⟨hfound, hleft⟩ := found_flags hentries hrest hhead
    rw [hwords]
    refine ⟨hfound.trans (by simp [Function.comp_def]), names.length + n, hleft.trans ?_⟩
    rw [List.replicate_add, List.append_assoc]
    simp [optionalComma, List.flatMap_map, ← List.map_eq_flatMap, List.map_const']

end Marker

end CommandDoc
