import Mathlib.Data.List.Chain
import CommandDoc.Name.Kebab
import CommandDoc.Proofs.Text.WordChar

/-!
# Kebab case

The walk over an identifier puts dashes into its output and drops the gaps of its input, so it is followed by
two invariants: what the output looks like, and which letters it holds.

Main definitions:

- `IsKebab`: words without gaps, with single dashes between them.
- `letters`: a text without its dashes.

Main results:

- Theorem `isKebab_kebab`: every identifier becomes such a text.
- Theorem `letters_kebab`: its letters are the lower case forms of those of the identifier.
- Theorem `IsKebab.kebab_eq`: such a text without capitals is in kebab case already.
- Theorem `kebab_keeps_letters`: all of this in one statement.
-/

namespace CommandDoc

open Text

/-! ## Gaps -/

/-- A code point in a range without blanks behind the underscore is no gap; one that no character has stands
for the character zero. -/
theorem isWordGap_ofNat_eq_false {first last n : Nat} (havoids : AvoidsBlanks first last)
    (hbehind : 0x5f < first) (hfirst : first ≤ n) (hlast : n ≤ last) :
    isWordGap (Char.ofNat n) = false := by
  by_cases hvalid : n.isValidChar
  · have hcode : (Char.ofNat n).toNat = n := by rw [Char.ofNat, dif_pos hvalid]; rfl
    have hne : ∀ c : Char, c.toNat ≤ 0x5f → Char.ofNat n ≠ c := by
      rintro c hc rfl
      omega
    simp [isWordGap, havoids.isBlank_eq_false (c := Char.ofNat n) (by omega) (by omega),
      hne '_' (by decide), hne '-' (by decide)]
  · have hzero : Char.ofNat n = Char.ofNat 0 := by rw [Char.ofNat, dif_neg hvalid]; rfl
    rw [hzero]
    decide

/-- A gap is its only spelling. -/
theorem toLower_eq_of_isWordGap {c d : Char} (hd : isWordGap d = true) (h : c.toLower = d) : c = d := by
  refine eq_of_toLower_eq ?_ h
  simp only [isWordGap, Bool.or_eq_true, beq_iff_eq] at hd
  rcases hd with (rfl | rfl) | hblank
  · decide
  · decide
  · exact isLower_eq_false_of_isBlank hblank

/-- The lower case form of a character that is no gap holds none. -/
theorem isWordGap_eq_false_of_mem_toLower {c d : Char} (hd : d ∈ toLower c) (hc : isWordGap c = false) :
    isWordGap d = false := by
  rw [toLower] at hd
  split at hd
  · rw [List.mem_singleton] at hd
    by_contra hgap
    rw [Bool.not_eq_false] at hgap
    rw [toLower_eq_of_isWordGap hgap hd.symm, hgap] at hc
    cases hc
  · split at hd
    · rcases List.mem_cons.mp hd with rfl | hd
      · rfl
      · rw [List.mem_singleton.mp hd]
        rfl
    · split at hd
      · next run form hfind =>
        have htable : ∀ entry ∈ loweringRuns,
            AvoidsBlanks entry.2 (entry.2 + (entry.1.last - entry.1.first)) ∧ 0x5f < entry.2 := by
          decide +kernel
        obtain ⟨havoids, hbehind⟩ := htable _ (List.mem_of_find?_eq_some hfind)
        have hcontains := List.find?_some hfind
        simp only [CodeRun.contains, Bool.and_eq_true, decide_eq_true_eq] at hcontains
        dsimp only at havoids hbehind
        rw [List.mem_singleton] at hd
        rw [hd]
        exact isWordGap_ofNat_eq_false havoids hbehind (by omega) (by omega)
      · rw [List.mem_singleton] at hd
        rwa [hd]

/-- A dash only separates words. -/
theorem ne_dash_of_isWordGap {c : Char} (h : isWordGap c = false) : c ≠ '-' := by
  rintro rfl
  cases h

/-! ## One character -/

/-- The reversed text after one more character. -/
def kebabStep (before : Option Char) (out : List Char) (c : Char) (rest : List Char) : List Char :=
  if isWordGap c then kebabDash out
  else (toLower c).reverse ++ if startsWord before c rest then kebabDash out else out

/-- Reading one more character is one step. -/
theorem kebabFrom_cons (before : Option Char) (out : List Char) (c : Char) (cs : List Char) :
    kebabFrom before out (c :: cs) = kebabFrom (some c) (kebabStep before out c cs) cs := by
  rw [kebabFrom, kebabStep]
  split <;> rfl

/-! ## Shape -/

/-- Of two neighbours at most one is a dash. -/
def HasSingleDashes (cs : List Char) : Prop :=
  cs.IsChain fun a b => a ≠ '-' ∨ b ≠ '-'

/-- A text in kebab case: words without gaps, with single dashes between them. -/
structure IsKebab (cs : List Char) : Prop where
  /-- No blank is in it. -/
  unspaced : ∀ c ∈ cs, isBlank c = false
  /-- No underscore is in it. -/
  underscore : '_' ∉ cs
  /-- It does not start with a dash. -/
  head : cs.head? ≠ some '-'
  /-- It does not end with a dash. -/
  last : cs.getLast? ≠ some '-'
  /-- No two dashes stand side by side. -/
  apart : HasSingleDashes cs

/-- A reversed text that is in kebab case so far; it can end with a dash, that is, start with one. -/
structure IsKebabBack (out : List Char) : Prop where
  /-- It has no gaps but dashes. -/
  plain : ∀ c ∈ out, c ≠ '-' → isWordGap c = false
  /-- The text does not start with a dash. -/
  start : out.getLast? ≠ some '-'
  /-- No two dashes stand side by side. -/
  apart : HasSingleDashes out

/-- Nothing written yet is well formed. -/
theorem isKebabBack_nil : IsKebabBack [] where
  plain := fun _ h => by cases h
  start := by simp
  apart := .nil

/-- Writing a dash after what is well formed keeps it so: two dashes never meet. -/
theorem IsKebabBack.dash {out : List Char} (h : IsKebabBack out) : IsKebabBack (kebabDash out) := by
  rw [kebabDash.eq_def]
  split
  · exact h
  · exact h
  · next c out hc =>
    refine ⟨?_, ?_, ?_⟩
    · intro d hd hne
      rcases List.mem_cons.mp hd with rfl | hd
      · exact absurd rfl hne
      · exact h.plain d hd hne
    · rw [List.getLast?_cons_cons]
      exact h.start
    · exact List.isChain_cons_cons.mpr ⟨Or.inr fun heq => hc heq, h.apart⟩

/-- A character that is not a gap can be written after anything well formed. -/
theorem IsKebabBack.cons {out : List Char} (h : IsKebabBack out) {c : Char} (hc : isWordGap c = false) :
    IsKebabBack (c :: out) where
  plain := by
    intro d hd hne
    rcases List.mem_cons.mp hd with rfl | hd
    · exact hc
    · exact h.plain d hd hne
  start := by
    cases out with
    | nil => simpa using ne_dash_of_isWordGap hc
    | cons d out =>
      rw [List.getLast?_cons_cons]
      exact h.start
  apart := List.isChain_cons.mpr ⟨fun _ _ => Or.inl (ne_dash_of_isWordGap hc), h.apart⟩

/-- So can several. -/
theorem IsKebabBack.append {out : List Char} (h : IsKebabBack out) {cs : List Char}
    (hcs : ∀ c ∈ cs, isWordGap c = false) : IsKebabBack (cs ++ out) := by
  induction cs with
  | nil => exact h
  | cons c cs ih =>
    exact (ih fun d hd => hcs d (List.mem_cons_of_mem _ hd)).cons (hcs c List.mem_cons_self)

/-- One more character keeps the shape. -/
theorem IsKebabBack.step {out : List Char} (h : IsKebabBack out) (before : Option Char) (c : Char)
    (rest : List Char) : IsKebabBack (kebabStep before out c rest) := by
  rw [kebabStep]
  by_cases hgap : isWordGap c = true
  · rw [if_pos hgap]
    exact h.dash
  · rw [if_neg hgap]
    have hletters : ∀ d ∈ (toLower c).reverse, isWordGap d = false := fun d hd =>
      isWordGap_eq_false_of_mem_toLower (List.mem_reverse.mp hd) (by simpa using hgap)
    apply IsKebabBack.append _ hletters
    split
    · exact h.dash
    · exact h

/-- Reading the rest of a name keeps what is written well formed. -/
theorem IsKebabBack.kebabFrom {out : List Char} (h : IsKebabBack out) (before : Option Char)
    (cs : List Char) : IsKebabBack (kebabFrom before out cs) := by
  induction cs generalizing before out with
  | nil => exact h
  | cons c cs ih =>
    rw [kebabFrom_cons]
    exact ih (h.step before c cs) _

/-- Without the dash at its end such a text is in kebab case. -/
theorem IsKebabBack.isKebab {out : List Char} (h : IsKebabBack out) :
    IsKebab (out.dropWhile (· == '-')).reverse := by
  have hsuffix := List.dropWhile_suffix (l := out) (· == '-')
  have hplain : ∀ c ∈ (out.dropWhile (· == '-')).reverse, c ≠ '-' → isWordGap c = false := fun c hc =>
    h.plain c (hsuffix.subset (List.mem_reverse.mp hc))
  constructor
  · intro c hc
    by_cases hdash : c = '-'
    · rw [hdash]
      decide
    · have hgap := hplain c hc hdash
      simp only [isWordGap, Bool.or_eq_false_iff] at hgap
      exact hgap.2
  · intro hc
    cases hplain _ hc (by decide)
  · rw [List.head?_reverse]
    intro hlast
    obtain ⟨front, hfront⟩ := hsuffix
    apply h.start
    rw [← hfront, List.getLast?_append, hlast, Option.some_or]
  · rw [List.getLast?_reverse]
    intro hhead
    have hkept := List.head?_dropWhile_not (· == '-') out
    rw [hhead] at hkept
    cases hkept
  · rw [HasSingleDashes, List.isChain_reverse]
    exact (List.IsChain.suffix h.apart hsuffix).imp fun _ _ => Or.symm

/-- Every identifier becomes a text in kebab case. -/
theorem isKebab_kebab (name : String) : IsKebab (kebab name).toList := by
  rw [kebab, String.toList_ofList]
  exact (isKebabBack_nil.kebabFrom none name.toList).isKebab

/-! ## Letters -/

/-- A text without its dashes. -/
def letters (cs : List Char) : List Char :=
  cs.filter (· ≠ '-')

/-- The letters of a text are those of its parts. -/
theorem letters_append (cs ds : List Char) : letters (cs ++ ds) = letters cs ++ letters ds :=
  List.filter_append cs ds

/-- Read backwards, a text has its letters backwards. -/
theorem letters_reverse (cs : List Char) : letters cs.reverse = (letters cs).reverse :=
  List.filter_reverse

/-- Text without a gap is all letters. -/
theorem letters_eq_self {cs : List Char} (h : ∀ c ∈ cs, isWordGap c = false) : letters cs = cs :=
  List.filter_eq_self.mpr fun c hc => decide_eq_true (ne_dash_of_isWordGap (h c hc))

/-- A dash adds no letter. -/
theorem letters_kebabDash (out : List Char) : letters (kebabDash out) = letters out := by
  rw [kebabDash.eq_def]
  split <;> rfl

/-- Dropping dashes drops no letter. -/
theorem letters_dropWhile (out : List Char) : letters (out.dropWhile (· == '-')) = letters out := by
  induction out with
  | nil => rfl
  | cons c out ih =>
    by_cases hc : c = '-'
    · rw [hc, List.dropWhile_cons_of_pos (by decide), ih]
      rfl
    · rw [List.dropWhile_cons_of_neg (by simpa using hc)]

/-- The lower case forms of the characters of a text that are no gaps. -/
def lowerLetters (cs : List Char) : List Char :=
  (cs.filter fun c => !isWordGap c).flatMap toLower

/-- The lower-case letters of a text are those of its parts. -/
theorem lowerLetters_append (cs ds : List Char) :
    lowerLetters (cs ++ ds) = lowerLetters cs ++ lowerLetters ds := by
  rw [lowerLetters, List.filter_append, List.flatMap_append, ← lowerLetters, ← lowerLetters]

/-- One more character adds its letters, if it has any. -/
theorem letters_kebabStep (before : Option Char) (out : List Char) (c : Char) (rest : List Char) :
    letters (kebabStep before out c rest) = (lowerLetters [c]).reverse ++ letters out := by
  rw [kebabStep, lowerLetters]
  by_cases hgap : isWordGap c = true
  · rw [if_pos hgap, letters_kebabDash]
    simp [hgap]
  · have hfree : ∀ d ∈ toLower c, isWordGap d = false := fun d hd =>
      isWordGap_eq_false_of_mem_toLower hd (by simpa using hgap)
    have hopened : letters (if startsWord before c rest then kebabDash out else out) = letters out := by
      split
      · exact letters_kebabDash out
      · rfl
    rw [if_neg hgap, letters_append, letters_reverse, letters_eq_self hfree, hopened]
    simp [hgap]

/-- What is written has the lower-case letters of what was read, and no others. -/
theorem letters_kebabFrom (before : Option Char) (out cs : List Char) :
    letters (kebabFrom before out cs) = (lowerLetters cs).reverse ++ letters out := by
  induction cs generalizing before out with
  | nil => rfl
  | cons c cs ih =>
    rw [kebabFrom_cons, ih, letters_kebabStep, ← List.append_assoc, ← List.reverse_append,
      ← lowerLetters_append, List.singleton_append]

/-- The letters of an identifier in kebab case are the lower case forms of its own. -/
theorem letters_kebab (name : String) : letters (kebab name).toList = lowerLetters name.toList := by
  rw [kebab, String.toList_ofList, letters_reverse, letters_dropWhile, letters_kebabFrom]
  simp [letters]

/-! ## Repetition -/

/-- A character that the walk takes over as it is. -/
def IsSettled (c : Char) : Prop :=
  c ≠ '-' → isUpper c = false ∧ toLower c = [c]

/-- A character that is already in kebab form is copied. -/
theorem kebabStep_of_isSettled {before : Option Char} {out rest : List Char} {c : Char}
    (hc : IsSettled c) (hgap : c ≠ '-' → isWordGap c = false) (hout : c = '-' → ∃ d ∈ out.head?, d ≠ '-') :
    kebabStep before out c rest = c :: out := by
  by_cases hdash : c = '-'
  · obtain ⟨d, hd, hne⟩ := hout hdash
    cases out with
    | nil => cases hd
    | cons e out =>
      cases hd
      rw [hdash, kebabStep, if_pos (by decide), kebabDash]
      exact fun heq => hne heq
  · obtain ⟨hupper, hlower⟩ := hc hdash
    have hword : startsWord before c rest = false := by
      cases before with
      | none => rfl
      | some b => rw [startsWord, hupper, Bool.false_and]
    rw [kebabStep, if_neg (by simp [hgap hdash]), hlower, hword]
    rfl

/-- The walk takes over a text of such characters in which no dash is dropped. -/
theorem kebabFrom_of_isSettled {before : Option Char} {out cs : List Char}
    (hsettled : ∀ c ∈ cs, IsSettled c) (hgap : ∀ c ∈ cs, c ≠ '-' → isWordGap c = false)
    (hapart : HasSingleDashes cs) (hout : cs.head? = some '-' → ∃ d ∈ out.head?, d ≠ '-') :
    kebabFrom before out cs = cs.reverse ++ out := by
  induction cs generalizing before out with
  | nil => rfl
  | cons c cs ih =>
    have hchain := List.isChain_cons.mp hapart
    have hstep : kebabStep before out c cs = c :: out :=
      kebabStep_of_isSettled (hsettled c List.mem_cons_self) (hgap c List.mem_cons_self)
        fun hdash => hout (by rw [hdash]; rfl)
    rw [kebabFrom_cons, hstep, ih (fun d hd => hsettled d (List.mem_cons_of_mem _ hd))
      (fun d hd => hgap d (List.mem_cons_of_mem _ hd)) hchain.2, List.reverse_cons, List.append_assoc]
    · rfl
    · intro hnext
      exact ⟨c, rfl, (hchain.1 '-' hnext).resolve_right fun h => h rfl⟩

/-- A text in kebab case without capitals stays as it is. -/
theorem IsKebab.kebab_eq {name : String} (h : IsKebab name.toList)
    (hsettled : ∀ c ∈ name.toList, IsSettled c) : kebab name = name := by
  have hgap : ∀ c ∈ name.toList, c ≠ '-' → isWordGap c = false := by
    intro c hc hdash
    have hunderscore : c ≠ '_' := fun heq => h.underscore (heq ▸ hc)
    simp [isWordGap, hdash, hunderscore, h.unspaced c hc]
  have hwalk : kebabFrom none [] name.toList = name.toList.reverse := by
    rw [kebabFrom_of_isSettled hsettled hgap h.apart fun hhead => absurd hhead h.head, List.append_nil]
  have hlast : (name.toList.reverse).dropWhile (· == '-') = name.toList.reverse := by
    rw [List.dropWhile_eq_self_iff]
    intro hne
    have hhead : name.toList.reverse.head? ≠ some '-' := by
      rw [List.head?_reverse]
      exact h.last
    rw [List.head?_eq_getElem?, List.getElem?_eq_getElem hne] at hhead
    simpa using hhead
  rw [kebab, hwalk, hlast, List.reverse_reverse, String.ofList_toList]

/-- The ASCII capitals as a range of code points. -/
theorem isUpper_iff {c : Char} : c.isUpper = true ↔ 0x41 ≤ c.toNat ∧ c.toNat ≤ 0x5a := by
  unfold Char.isUpper
  rw [decide_eq_true_eq, ge_iff_le, UInt32.le_iff_toNat_le, UInt32.le_iff_toNat_le]
  rfl

/-- Only the upper-case letters move, by the distance of the two alphabets. -/
theorem toNat_toLower (c : Char) :
    c.toLower.toNat = if c.isUpper then c.toNat + 0x20 else c.toNat := by
  unfold Char.toLower
  split
  · next hrange =>
    have hupper : c.isUpper = true := isUpper_iff.mpr hrange
    have hsum : (c.val + ('a'.val - 'A'.val)).toNat = c.toNat + 0x20 := by
      rw [UInt32.toNat_add]
      have hlast : c.toNat ≤ 0x5a := hrange.2
      exact Nat.mod_eq_of_lt (by change c.toNat + 0x20 < 2 ^ 32; omega)
    rw [if_pos hupper]
    exact hsum
  · next hrange =>
    rw [if_neg fun hupper => hrange (isUpper_iff.mp hupper)]

/-- The lower case form of an ASCII character is one that the walk takes over. -/
theorem isSettled_of_mem_toLower {c d : Char} (hc : c.toNat < 0x80) (hd : d ∈ toLower c) : IsSettled d := by
  have hform : d = c.toLower := by simpa [toLower, hc] using hd
  have hcode := toNat_toLower c
  rw [← hform] at hcode
  have hascii : d.toNat < 0x80 := by
    split at hcode
    · next hupper =>
      have hrange := isUpper_iff.mp hupper
      omega
    · omega
  have hupper : d.isUpper = false := by
    rw [← Bool.not_eq_true, isUpper_iff]
    split at hcode
    · next hupper =>
      have hrange := isUpper_iff.mp hupper
      omega
    · next hother =>
      rw [isUpper_iff] at hother
      omega
  have hlower : d.toLower = d := by
    rw [← Char.toNat_inj, toNat_toLower, hupper]
    rfl
  intro _
  rw [isUpper, if_pos hascii, toLower, if_pos hascii, hlower]
  exact ⟨hupper, rfl⟩

/-- An ASCII identifier in kebab case stays as it is. -/
theorem kebab_kebab {name : String} (h : ∀ c ∈ name.toList, c.toNat < 0x80) :
    kebab (kebab name) = kebab name := by
  apply (isKebab_kebab name).kebab_eq
  intro d hd hdash
  have hletter : d ∈ letters (kebab name).toList := List.mem_filter.mpr ⟨hd, decide_eq_true hdash⟩
  rw [letters_kebab, lowerLetters, List.mem_flatMap] at hletter
  obtain ⟨c, hc, hform⟩ := hletter
  exact isSettled_of_mem_toLower (h c (List.mem_of_mem_filter hc)) hform hdash

/-- Kebab case changes nothing but letter case and what stands between words: without its dashes the result
holds the lower case forms of the letters of the identifier, in their order. -/
theorem kebab_keeps_letters (name : String) :
    IsKebab (kebab name).toList ∧
      (kebab name).toList.filter (· ≠ '-')
        = (name.toList.filter fun c => c ≠ '_' ∧ c ≠ '-' ∧ isBlank c = false).flatMap toLower ∧
      ((∀ c ∈ name.toList, c.toNat < 0x80) → kebab (kebab name) = kebab name) := by
  have hletters : lowerLetters name.toList
      = (name.toList.filter fun c => c ≠ '_' ∧ c ≠ '-' ∧ isBlank c = false).flatMap toLower := by
    rw [lowerLetters]
    congr 2
    funext c
    rw [Bool.eq_iff_iff]
    simp [isWordGap, and_assoc]
  refine ⟨isKebab_kebab name, ?_, kebab_kebab⟩
  rw [← hletters, ← letters_kebab, letters]

/-- Capitals that follow each other are one word, up to the one that starts the next word. -/
theorem kebab_keeps_letters_serverName :
    (∀ c ∈ "_HTTPServer maxV2__".toList, c.toNat < 0x80) ∧
      kebab "_HTTPServer maxV2__" = "http-server-max-v2" ∧
      kebab (kebab "_HTTPServer maxV2__") = kebab "_HTTPServer maxV2__" :=
  have hall : "_HTTPServer maxV2__".toList.all (·.toNat < 0x80) = true := by decide
  have hascii : ∀ c ∈ "_HTTPServer maxV2__".toList, c.toNat < 0x80 := fun c hc =>
    of_decide_eq_true (List.all_eq_true.mp hall c hc)
  ⟨hascii, by decide, (kebab_keeps_letters "_HTTPServer maxV2__").2.2 hascii⟩

end CommandDoc
