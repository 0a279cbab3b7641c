import CommandDoc.Param.Attributes
import CommandDoc.Proofs.Comment.LineForm
import CommandDoc.Proofs.Signature.FunctionRef
import CommandDoc.Proofs.Text.LetterCase

/-!
# Attributes can be read back

An attribute that stands for itself is read as it is written, and a block is read as the attributes that were
written into it.  The keywords exclude each other: each entry starts with the word of a single attribute.

Main definitions:

- `Attribute.written`: how an attribute is written.
- `Attribute.IsWritable`: the attributes that can be written down.
- `Attribute.ReadsAs`: what an entry can be read as.
- `Candidate.attributes`: the attributes that make up a candidate, and `Candidate.attributed`: the part of it
  that they hold.

Main results:

- Theorem `Attribute.ofEntry_written`: one attribute can be read back.
- Theorem `Attribute.entries_block`: the entries of a block are the attributes that were written into it.
- Theorem `Candidate.readAttributes_block`: reading a block gives what the candidate had to say in it.
-/

namespace CommandDoc

open Text

namespace Attribute

/-! ## Written attributes -/

/-- How an attribute is written that stands for itself.  A fallback, a single word and an entry without a
meaning are not written. -/
def written : Attribute → List Char
  | required => "required".toList
  | inherited => "global".toList
  | fromParent => "from: parent".toList
  | parser ref => "parser:".toList ++ ' ' :: (ref.map (·.display.toList)).getD []
  | generator ref => "generator:".toList ++ ' ' :: (ref.map (·.display.toList)).getD []
  | aka names => "aka:".toList ++ ' ' :: unwords (names.map String.toList)
  | environment variableName _ => "default from environment".toList ++ ' ' :: variableName.toList
  | defaultValue value => "default:".toList ++ ' ' :: quote value.toList
  | fallback _ | word _ | other => []

/-- A name of ASCII letters and digits. -/
def IsAlias (name : List Char) : Prop :=
  name ≠ [] ∧ ∀ c ∈ name, c.isAlphanum = true

/-- Whether a name is an alias can be tested. -/
theorem isAlias_iff {name : List Char} : IsAlias name ↔ name ≠ [] ∧ name.all Char.isAlphanum = true := by
  rw [IsAlias, List.all_eq_true]

instance : DecidablePred IsAlias := fun _ => decidable_of_iff _ isAlias_iff.symm

/-- An attribute that can be written down. -/
def IsWritable : Attribute → Prop
  | required | inherited | fromParent => True
  | parser ref | generator ref => ∃ function, ref = some function ∧ function.IsPlain
  | aka names => names ≠ [] ∧ ∀ name ∈ names, IsAlias name.toList
  | environment variableName behind => IsIdentifier variableName.toList ∧ behind = none
  | defaultValue value => '\\' ∉ value.toList
  | fallback _ | word _ | other => False

/-- A reference to a parser stands behind its keyword and a space. -/
@[simp] theorem written_parser_some (function : FunctionRef) :
    written (parser (some function)) = "parser:".toList ++ ' ' :: function.display.toList := rfl

/-- So does one to a generator. -/
@[simp] theorem written_generator_some (function : FunctionRef) :
    written (generator (some function)) = "generator:".toList ++ ' ' :: function.display.toList := rfl

/-- Further names stand behind their keyword with spaces in between. -/
@[simp] theorem written_aka (names : List String) :
    written (aka names) = "aka:".toList ++ ' ' :: unwords (names.map String.toList) := rfl

/-- The name of an environment variable stands behind four words. -/
@[simp] theorem written_environment (variableName : String) (behind : Option String) :
    written (environment variableName behind)
      = "default from environment".toList ++ ' ' :: variableName.toList := rfl

/-- A default value is quoted. -/
@[simp] theorem written_defaultValue (value : String) :
    written (defaultValue value) = "default:".toList ++ ' ' :: quote value.toList := rfl

/-! ## Reading keywords -/

/-- The value behind a keyword is the rest of the entry, trimmed. -/
theorem keywordValue?_append {keyword : String}
    (hkeyword : keyword.toList.map Char.toLower = keyword.toList) (rest : List Char) :
    keywordValue? keyword (keyword.toList ++ rest) = some (trim rest) := by
  have hword : afterWord? Char.toLower keyword.toList (keyword.toList ++ rest) = some rest :=
    afterWord?_eq_some_iff.mpr ⟨_, rfl, hkeyword⟩
  rw [keywordValue?, hword, Option.map_some]

/-- An entry that starts with a keyword is read as the keyword says. -/
theorem ofEntry_of_keyword? {entry : List Char} {found : Attribute}
    (hrequired : (asciiLower entry == "required".toList) = false)
    (hinherited : (asciiLower entry == "global".toList || asciiLower entry == "inherited".toList) = false)
    (hparent : isFromParent entry = false) (h : keyword? entry = some found) : ofEntry entry = found := by
  rw [ofEntry]
  simp only [hrequired, hinherited, hparent, Bool.false_eq_true, if_false, h]

/-- What follows the keyword of a parser is read as a reference. -/
theorem ofEntry_parser_append (rest : List Char) :
    ofEntry ("parser:".toList ++ rest) = parser (FunctionRef.ofChars? (trim rest)) := by
  refine ofEntry_of_keyword? rfl rfl rfl ?_
  rw [keyword?, keywordValue?_append (by decide)]
  rfl

/-- So is what follows that of a generator. -/
theorem ofEntry_generator_append (rest : List Char) :
    ofEntry ("generator:".toList ++ rest) = generator (FunctionRef.ofChars? (trim rest)) := by
  have hparser : keywordValue? "parser:" ("generator:".toList ++ rest) = none := rfl
  refine ofEntry_of_keyword? rfl rfl rfl ?_
  rw [keyword?, hparser, keywordValue?_append (by decide)]
  rfl

/-- What follows the keyword of further names is read as names. -/
theorem ofEntry_aka_append (rest : List Char) :
    ofEntry ("aka:".toList ++ rest) = aka (aliasNames (trim rest)) := by
  have hparser : keywordValue? "parser:" ("aka:".toList ++ rest) = none := rfl
  have hgenerator : keywordValue? "generator:" ("aka:".toList ++ rest) = none := rfl
  refine ofEntry_of_keyword? rfl rfl rfl ?_
  rw [keyword?, hparser, hgenerator, keywordValue?_append (by decide)]
  rfl

/-! ## Reading environment variables -/

/-- Letters stay letters when their case is folded. -/
theorem foldLetter_isAlpha {c : Char} (h : c.isAlpha = true) : (foldLetter c).isAlpha = true := by
  unfold Char.isAlpha Char.isUpper Char.isLower at h ⊢
  simp only [Bool.or_eq_true, Bool.and_eq_true, decide_eq_true_eq, ge_iff_le, UInt32.le_iff_toNat_le,
    Char.reduceVal, UInt32.reduceToNat] at h
  have hsmall : c.toNat ≤ 122 := by
    change c.val.toNat ≤ 122
    omega
  rw [foldLetter, if_neg (by simp; omega), if_neg (by simp; omega)]
  unfold Char.toLower
  simp only [Bool.or_eq_true, Bool.and_eq_true, decide_eq_true_eq, ge_iff_le, UInt32.le_iff_toNat_le,
    Char.reduceVal, UInt32.reduceToNat]
  split
  · next hupper =>
    right
    simp only [UInt32.reduceToNat, UInt32.toNat_add, UInt32.reduceSub] at hupper ⊢
    omega
  · exact h

/-- The start of an identifier can start the name of a variable. -/
theorem isVariableStart_of_isIdentifierStart {c : Char} (h : LineForm.isIdentifierStart c = true) :
    isVariableStart c = true := by
  rw [LineForm.isIdentifierStart, Bool.or_eq_true] at h
  rw [isVariableStart, Bool.or_eq_true]
  exact h.imp_left foldLetter_isAlpha

/-- The characters of an identifier can stand in the name of a variable. -/
theorem isVariableChar_of_isIdentifierChar {c : Char} (h : LineForm.isIdentifierChar c = true) :
    isVariableChar c = true := by
  rw [LineForm.isIdentifierChar, Char.isAlphanum, Bool.or_eq_true, Bool.or_eq_true] at h
  rw [isVariableChar, isVariableStart, Bool.or_eq_true, Bool.or_eq_true]
  rcases h with (halpha | hdigit) | hunderscore
  · exact Or.inl (Or.inl (foldLetter_isAlpha halpha))
  · exact Or.inr hdigit
  · exact Or.inl (Or.inr hunderscore)

/-- All characters of an identifier can stand in the name of a variable. -/
theorem isVariableChar_of_mem_identifier {name : List Char} (h : IsIdentifier name) {c : Char}
    (hc : c ∈ name) : isVariableChar c = true := by
  obtain ⟨first, rest, rfl, hstart, hchars⟩ := h.exists_cons
  rcases List.mem_cons.mp hc with rfl | hc
  · exact isVariableChar_of_isIdentifierChar (LineForm.isIdentifierChar_of_isIdentifierStart hstart)
  · exact isVariableChar_of_isIdentifierChar (hchars c hc)

/-- The name of an environment variable is read behind its four words. -/
theorem environment?_append {name : List Char} (h : IsIdentifier name) :
    environment? ("default from environment".toList ++ ' ' :: name)
      = some (environment (String.ofList name) none) := by
  have hvariable : ∀ d ∈ name, isVariableChar d = true := fun d hd => isVariableChar_of_mem_identifier h hd
  obtain ⟨c, cs, rfl, hstart, -⟩ := h.exists_cons
  have hblank : isBlank c = false :=
    isBlank_eq_false_of_isIdentifierChar (LineForm.isIdentifierChar_of_isIdentifierStart hstart)
  have hdefault : afterWord? foldLetter "default".toList ("default from environment".toList ++ ' ' :: c :: cs)
      = some (" from environment".toList ++ ' ' :: c :: cs) := rfl
  have hbehind : afterBlanks? (" from environment".toList ++ ' ' :: c :: cs)
      = some ("from environment".toList ++ ' ' :: c :: cs) := rfl
  have hfrom : afterWord? foldLetter "from".toList ("from environment".toList ++ ' ' :: c :: cs)
      = some (" environment".toList ++ ' ' :: c :: cs) := rfl
  have hsource : afterBlanks? (" environment".toList ++ ' ' :: c :: cs)
      = some ("environment".toList ++ ' ' :: c :: cs) := rfl
  have hword : afterWord? foldLetter "environment".toList ("environment".toList ++ ' ' :: c :: cs)
      = some (' ' :: c :: cs) := rfl
  have hname : afterBlanks? (' ' :: c :: cs) = some (c :: cs) := by
    rw [afterBlanks?, if_pos (by decide), trimStart_cons_blank (by decide), trimStart_cons hblank]
  have htake : (c :: cs).takeWhile isVariableChar = c :: cs := List.takeWhile_eq_self_iff.mpr hvariable
  have hdrop : (c :: cs).dropWhile isVariableChar = [] := List.dropWhile_eq_nil_iff.mpr hvariable
  simp only [environment?, hdefault, hbehind, hfrom, hsource, hword, hname, htake, hdrop,
    Option.bind_eq_bind, Option.bind_some, Option.some_or, isVariableStart_of_isIdentifierStart hstart]
  simp

/-- What is behind blanks is made of characters of the text. -/
theorem afterBlanks?_sublist {cs rest : List Char} (h : afterBlanks? cs = some rest) : rest.Sublist cs := by
  cases cs with
  | nil => cases h
  | cons c cs =>
    rw [afterBlanks?] at h
    split at h
    · cases h
      exact List.dropWhile_sublist _
    · cases h

/-- So is the value that is used if the variable is missing. -/
theorem environmentFallback?_sublist {cs value : List Char} (h : environmentFallback? cs = some value) :
    value.Sublist cs := by
  unfold environmentFallback? at h
  obtain ⟨behind, hbehind, h⟩ := Option.bind_eq_some_iff.mp h
  obtain ⟨rest, hrest, h⟩ := Option.bind_eq_some_iff.mp h
  dsimp only at h
  split at h
  · cases h
  · cases h
    exact (List.dropWhile_sublist _).trans ((afterWord?_sublist hrest).trans (afterBlanks?_sublist hbehind))

/-- What an environment variable falls back to is part of its entry. -/
theorem environment?_eq_some {entry : List Char} {found : Attribute} (h : environment? entry = some found) :
    ∃ variableName fallback, found = environment variableName fallback ∧
      ∀ value ∈ fallback, value.toList.Sublist entry := by
  unfold environment? at h
  obtain ⟨afterDefault, hdefault, h⟩ := Option.bind_eq_some_iff.mp h
  obtain ⟨behindDefault, hbehind, h⟩ := Option.bind_eq_some_iff.mp h
  obtain ⟨afterFrom, hfrom, h⟩ := Option.bind_eq_some_iff.mp h
  obtain ⟨source, hsource, h⟩ := Option.bind_eq_some_iff.mp h
  obtain ⟨text, htext, h⟩ := Option.bind_eq_some_iff.mp h
  have hword : ∀ word : String, (afterWord? foldLetter word.toList source).bind afterBlanks? = some text →
      text.Sublist source := by
    intro word hword
    obtain ⟨rest, hrest, hblanks⟩ := Option.bind_eq_some_iff.mp hword
    exact (afterBlanks?_sublist hblanks).trans (afterWord?_sublist hrest)
  have htext' : text.Sublist entry := by
    have hsource' : text.Sublist source := by
      rcases Option.or_eq_some_iff.mp htext with hlong | ⟨-, hshort⟩
      · exact hword _ hlong
      · exact hword _ hshort
    exact hsource'.trans ((afterBlanks?_sublist hsource).trans ((afterWord?_sublist hfrom).trans
      ((afterBlanks?_sublist hbehind).trans (afterWord?_sublist hdefault))))
  dsimp only at h
  split at h
  · cases h
  · split at h
    · cases h
    · split at h
      · cases h
        exact ⟨_, _, rfl, by nofun⟩
      · obtain ⟨value, hvalue, h⟩ := Option.bind_eq_some_iff.mp h
        cases h
        refine ⟨_, _, rfl, ?_⟩
        rintro _ ⟨⟩
        rw [String.toList_ofList]
        exact (unquote_sublist value).trans ((environmentFallback?_sublist hvalue).trans
          ((List.dropWhile_sublist _).trans htext'))

/-- An entry with an environment variable is read as one. -/
theorem ofEntry_environment_append {name : List Char} (h : IsIdentifier name) :
    ofEntry ("default from environment".toList ++ ' ' :: name)
      = environment (String.ofList name) none := by
  have hparser : keywordValue? "parser:" ("default from environment".toList ++ ' ' :: name) = none := rfl
  have hgenerator :
      keywordValue? "generator:" ("default from environment".toList ++ ' ' :: name) = none := rfl
  have haka : keywordValue? "aka:" ("default from environment".toList ++ ' ' :: name) = none := rfl
  refine ofEntry_of_keyword? rfl rfl rfl ?_
  rw [keyword?, hparser, hgenerator, haka, environment?_append h]
  rfl

/-- A default value is no environment variable, since a colon stands where a blank has to. -/
theorem ofEntry_defaultValue_append (rest : List Char) :
    ofEntry ("default:".toList ++ rest) = defaultValue (String.ofList (unquote (trim rest))) := by
  have hparser : keywordValue? "parser:" ("default:".toList ++ rest) = none := rfl
  have hgenerator : keywordValue? "generator:" ("default:".toList ++ rest) = none := rfl
  have haka : keywordValue? "aka:" ("default:".toList ++ rest) = none := rfl
  have henvironment : environment? ("default:".toList ++ rest) = none := rfl
  refine ofEntry_of_keyword? rfl rfl rfl ?_
  rw [keyword?, hparser, hgenerator, haka, henvironment, keywordValue?_append (by decide)]
  rfl

/-! ## Reading names -/

/-- An alias is a word. -/
theorem IsAlias.isWord {name : List Char} (h : IsAlias name) : name ≠ [] ∧ ∀ c ∈ name, isBlank c = false :=
  ⟨h.1, fun c hc => isBlank_eq_false_of_isAlphanum (h.2 c hc)⟩

/-- An alias does not start with a dash. -/
theorem IsAlias.dropWhile_dash {name : List Char} (h : IsAlias name) : name.dropWhile (· == '-') = name := by
  obtain ⟨c, cs, rfl⟩ := List.exists_cons_of_ne_nil h.1
  have hc := h.2 c List.mem_cons_self
  refine List.dropWhile_cons_of_neg ?_
  rw [beq_iff_eq]
  rintro rfl
  cases hc

/-- Aliases are words. -/
theorem forall_isWord_of_isAlias {names : List String} (h : ∀ name ∈ names, IsAlias name.toList) :
    ∀ w ∈ names.map String.toList, w ≠ [] ∧ ∀ c ∈ w, isBlank c = false := by
  intro w hw
  obtain ⟨name, hname, rfl⟩ := List.mem_map.mp hw
  exact (h name hname).isWord

/-- Names are the same strings before and after they are taken apart. -/
theorem map_ofList_map_toList (names : List String) :
    (names.map String.toList).map String.ofList = names := by
  rw [List.map_map]
  exact (List.map_congr_left fun _ _ => String.ofList_toList).trans (List.map_id _)

/-- Names with spaces between them are read as they are. -/
theorem aliasNames_unwords {names : List String} (h : ∀ name ∈ names, IsAlias name.toList) :
    aliasNames (unwords (names.map String.toList)) = names := by
  have hwords := forall_isWord_of_isAlias h
  have hbare : (names.map String.toList).map (fun word => word.dropWhile (· == '-'))
      = names.map String.toList := by
    rw [List.map_map]
    exact List.map_congr_left fun name hname => (h name hname).dropWhile_dash
  have hfilter : (names.map String.toList).filter (fun name => !name.isEmpty) = names.map String.toList := by
    rw [List.filter_eq_self]
    intro w hw
    simpa using (hwords w hw).1
  rw [aliasNames, words_unwords hwords, hbare, hfilter, map_ofList_map_toList]

/-! ## Whole entries -/

/-- An attribute can be read back from how it is written. -/
theorem ofEntry_written {a : Attribute} (h : a.IsWritable) : ofEntry a.written = a := by
  cases a with
  | required => rfl
  | inherited => rfl
  | fromParent => rfl
  | parser ref =>
    obtain ⟨function, rfl, hplain⟩ := h
    rw [written_parser_some, ofEntry_parser_append, trim_cons_blank (by decide),
      FunctionRef.trim_display hplain, FunctionRef.ofChars?_display hplain]
  | generator ref =>
    obtain ⟨function, rfl, hplain⟩ := h
    rw [written_generator_some, ofEntry_generator_append, trim_cons_blank (by decide),
      FunctionRef.trim_display hplain, FunctionRef.ofChars?_display hplain]
  | aka names =>
    rw [written_aka, ofEntry_aka_append, trim_cons_blank (by decide),
      trim_unwords (forall_isWord_of_isAlias h.2), aliasNames_unwords h.2]
  | environment variableName behind =>
    obtain ⟨hname, rfl⟩ := h
    rw [written_environment, ofEntry_environment_append hname, String.ofList_toList]
  | defaultValue value =>
    rw [written_defaultValue, ofEntry_defaultValue_append, trim_cons_blank (by decide), trim_quote,
      unquote_quote h, String.ofList_toList]
  | fallback value => exact h.elim
  | word names => exact h.elim
  | other => exact h.elim

/-- What an entry can be read as, with the part of the entry that says so. -/
inductive ReadsAs (entry : List Char) : Attribute → Prop
  /-- A value must be given. -/
  | required : ReadsAs entry required
  /-- Subcommands see the parameter too. -/
  | inherited : ReadsAs entry inherited
  /-- A command above declares the parameter. -/
  | fromParent : ReadsAs entry fromParent
  /-- A reference behind its keyword. -/
  | parser {value : List Char} (h : keywordValue? "parser:" entry = some value) :
      ReadsAs entry (parser (FunctionRef.ofChars? value))
  /-- A reference behind its keyword. -/
  | generator {value : List Char} (h : keywordValue? "generator:" entry = some value) :
      ReadsAs entry (generator (FunctionRef.ofChars? value))
  /-- Further names behind their keyword. -/
  | aka {value : List Char} (h : keywordValue? "aka:" entry = some value) : ReadsAs entry (aka (aliasNames value))
  /-- An environment variable, with or without a value for when it is not set. -/
  | environment {variableName : String} {behind : Option String}
      (h : environment? entry = some (environment variableName behind)) :
      ReadsAs entry (environment variableName behind)
  /-- A value behind its keyword. -/
  | defaultValue {value : List Char} (h : keywordValue? "default:" entry = some value) :
      ReadsAs entry (defaultValue (String.ofList (unquote value)))
  /-- A value behind its keyword. -/
  | fallback {value : List Char} (h : keywordValue? "fallback:" entry = some value) :
      ReadsAs entry (fallback (String.ofList (unquote value)))
  /-- A single word. -/
  | word : ReadsAs entry (word (aliasNames entry))
  /-- Anything else. -/
  | other : ReadsAs entry other

/-- An entry that is a keyword is read as the attribute of this keyword. -/
theorem readsAs_of_keyword? {entry : List Char} {found : Attribute} (h : keyword? entry = some found) :
    ReadsAs entry found := by
  simp only [keyword?, Option.or_eq_some_iff, Option.map_eq_some_iff] at h
  rcases h with (⟨_, hparser, rfl⟩ | ⟨-, _, hgenerator, rfl⟩) |
    ⟨-, ⟨_, haka, rfl⟩ | ⟨-, henvironment | ⟨-, ⟨_, hdefault, rfl⟩ | ⟨-, _, hfallback, rfl⟩⟩⟩⟩
  · exact .parser hparser
  · exact .generator hgenerator
  · exact .aka haka
  · obtain ⟨_, _, rfl, -⟩ := environment?_eq_some henvironment
    exact .environment henvironment
  · exact .defaultValue hdefault
  · exact .fallback hfallback

/-- Every entry is read in one of these ways. -/
theorem readsAs_ofEntry (entry : List Char) : ReadsAs entry (ofEntry entry) := by
  rw [ofEntry]
  split
  · exact .required
  · split
    · exact .inherited
    · split
      · exact .fromParent
      · split
        · next found hfound => exact readsAs_of_keyword? hfound
        · split
          · exact .word
          · exact .other

/-- A text that can be an entry of a block, with a separator behind it. -/
structure IsEntry (entry : List Char) : Prop where
  /-- There is something in it. -/
  ne_nil : entry ≠ []
  /-- There are no blanks around it. -/
  trim_eq : trim entry = entry
  /-- Separators stand in quotes and parentheses only. -/
  isBalanced : IsBalanced [';', ','] entry

/-- A value behind a keyword is an entry, if the value is one. -/
theorem IsEntry.keyword_append {value : List Char} (h : IsEntry value) {keyword : List Char}
    (hne : keyword ≠ []) (hstart : trimStart keyword = keyword)
    (hkeyword : IsBalanced [';', ','] keyword) : IsEntry (keyword ++ ' ' :: value) where
  ne_nil := List.append_ne_nil_of_left_ne_nil hne _
  trim_eq := by
    have hvalue := (trim_eq_self_iff.mp h.trim_eq).2
    have hend : trimEnd (keyword ++ ' ' :: value) = keyword ++ ' ' :: value := by
      rw [List.append_cons, trimEnd_append _ (by rw [hvalue]; exact h.ne_nil), hvalue]
    exact trim_eq_self_iff.mpr ⟨trimStart_append hne hstart _, hend⟩
  isBalanced := hkeyword.append (.char (by decide) (by decide) h.isBalanced)

/-- A text of letters, digits and underscores is an entry. -/
theorem isEntry_of_isIdentifierChar {entry : List Char} (hne : entry ≠ [])
    (h : ∀ c ∈ entry, LineForm.isIdentifierChar c = true) : IsEntry entry := by
  have hnot : ∀ c ∈ entry, ∀ ds : List Char, (ds.all fun d => !LineForm.isIdentifierChar d) = true →
      c ∉ ds := by
    intro c hc ds hds hmem
    have hfalse := List.all_eq_true.mp hds c hmem
    rw [h c hc] at hfalse
    cases hfalse
  have hblank : ∀ c ∈ entry, isBlank c = false := fun c hc => isBlank_eq_false_of_isIdentifierChar (h c hc)
  exact ⟨hne, trim_of_forall_not_isBlank hblank,
    .of_forall fun c hc => ⟨hnot c hc _ (by decide), hnot c hc _ (by decide)⟩⟩

/-- Aliases with spaces in between are an entry. -/
theorem isEntry_unwords {names : List String} (hne : names ≠ [])
    (h : ∀ name ∈ names, IsAlias name.toList) : IsEntry (unwords (names.map String.toList)) where
  ne_nil := intercalate_ne_nil (by simpa using hne) fun w hw => (forall_isWord_of_isAlias h w hw).1
  trim_eq := trim_unwords (forall_isWord_of_isAlias h)
  isBalanced := by
    refine .intercalate (.char (by decide) (by decide) .nil) fun w hw => ?_
    obtain ⟨name, hname, rfl⟩ := List.mem_map.mp hw
    exact (isEntry_of_isIdentifierChar (h name hname).1 fun c hc => by
      rw [LineForm.isIdentifierChar, (h name hname).2 c hc, Bool.true_or]).isBalanced

/-- Attributes can be put into a block. -/
theorem isEntry_written {a : Attribute} (h : a.IsWritable) : IsEntry a.written := by
  have hfunction : ∀ function : FunctionRef, function.IsPlain → IsEntry function.display.toList :=
    fun function hplain => ⟨FunctionRef.display_ne_nil hplain, FunctionRef.trim_display hplain,
      FunctionRef.isBalanced_display hplain⟩
  cases a with
  | required => exact isEntry_of_isIdentifierChar (by decide) (List.all_eq_true.mp (by decide))
  | inherited => exact isEntry_of_isIdentifierChar (by decide) (List.all_eq_true.mp (by decide))
  | fromParent =>
    have hparent : IsEntry "parent".toList :=
      isEntry_of_isIdentifierChar (by decide) (List.all_eq_true.mp (by decide))
    have hentry : IsEntry ("from:".toList ++ ' ' :: "parent".toList) :=
      hparent.keyword_append (by decide) (by decide) (.of_all (by decide))
    exact hentry
  | parser ref =>
    obtain ⟨function, rfl, hplain⟩ := h
    rw [written_parser_some]
    exact (hfunction function hplain).keyword_append (by decide) (by decide) (.of_all (by decide))
  | generator ref =>
    obtain ⟨function, rfl, hplain⟩ := h
    rw [written_generator_some]
    exact (hfunction function hplain).keyword_append (by decide) (by decide) (.of_all (by decide))
  | aka names =>
    rw [written_aka]
    exact (isEntry_unwords h.1 h.2).keyword_append (by decide) (by decide) (.of_all (by decide))
  | environment variableName behind =>
    obtain ⟨c, cs, hname, hstart, hchars⟩ := h.1.exists_cons
    have hentry : IsEntry variableName.toList := by
      rw [hname]
      refine isEntry_of_isIdentifierChar (List.cons_ne_nil _ _) fun d hd => ?_
      rcases List.mem_cons.mp hd with rfl | hd
      · exact LineForm.isIdentifierChar_of_isIdentifierStart hstart
      · exact hchars d hd
    rw [written_environment]
    exact hentry.keyword_append (by decide) (by decide) (.of_all (by decide))
  | defaultValue value =>
    have hentry : IsEntry (quote value.toList) := ⟨List.cons_ne_nil _ _, trim_quote _, .quote h⟩
    rw [written_defaultValue]
    exact hentry.keyword_append (by decide) (by decide) (.of_all (by decide))
  | fallback value => exact h.elim
  | word names => exact h.elim
  | other => exact h.elim

/-! ## Blocks -/

/-- The inside of a block of attributes. -/
def block (attributes : List Attribute) : List Char :=
  List.intercalate [';', ' '] (attributes.map written)

/-- What is written for attributes are entries of a block. -/
theorem forall_isEntry_written {attributes : List Attribute} (h : ∀ a ∈ attributes, a.IsWritable) :
    ∀ entry ∈ attributes.map written, IsEntry entry := by
  intro entry hmem
  obtain ⟨a, ha, rfl⟩ := List.mem_map.mp hmem
  exact isEntry_written (h a ha)

/-- The entries of a block are the texts that were put together, whatever separators stand between them. -/
theorem entries_of_isJoined {texts : List (List Char)} {text : List Char}
    (h : IsJoined [';', ','] texts text)
    (htexts : ∀ entry ∈ texts, IsEnclosed [';', ','] entry ∧ trim entry ≠ []) :
    entries text = texts.map trim := by
  by_cases hne : texts = []
  · subst hne
    cases h
    rfl
  · rw [entries, h.map_trim_splitTopLevel (by decide) hne fun entry hmem => (htexts entry hmem).1,
      List.filter_eq_self]
    intro entry hmem
    obtain ⟨written, hwritten, rfl⟩ := List.mem_map.mp hmem
    simpa using (htexts written hwritten).2

/-- The entries of a block are the attributes that were written into it. -/
theorem entries_block {attributes : List Attribute} (h : ∀ a ∈ attributes, a.IsWritable) :
    entries (block attributes) = attributes.map written := by
  have hentry := forall_isEntry_written h
  rw [block, entries_of_isJoined (isJoined_intercalate (by decide) _)]
  · exact (List.map_congr_left fun entry hmem => (hentry entry hmem).trim_eq).trans (List.map_id _)
  · intro entry hmem
    rw [(hentry entry hmem).trim_eq]
    exact ⟨(hentry entry hmem).isBalanced.isEnclosed, (hentry entry hmem).ne_nil⟩

/-- A block has no blanks at its ends. -/
theorem trim_block {attributes : List Attribute} (h : ∀ a ∈ attributes, a.IsWritable) :
    trim (block attributes) = block attributes := by
  have hentry := forall_isEntry_written h
  exact trim_intercalate (fun entry hmem => (hentry entry hmem).ne_nil) fun entry hmem =>
    (hentry entry hmem).trim_eq

/-- A block is balanced, so the parentheses around it belong together. -/
theorem isBalanced_block {attributes : List Attribute} (h : ∀ a ∈ attributes, a.IsWritable) :
    IsBalanced [] (block attributes) :=
  .intercalate (.of_all (by decide)) fun entry hmem =>
    (forall_isEntry_written h entry hmem).isBalanced.mono (by simp)

/-- Lay an attribute that stands for itself into a candidate. -/
def lay (candidate : Candidate) (a : Attribute) : Candidate :=
  (a.apply candidate .nothing).1

/-- What an attribute that stands for itself adds to a candidate does not depend on the one before it. -/
theorem applyAll_eq_foldl {attributes : List Attribute} (h : ∀ a ∈ attributes, a.IsWritable)
    (candidate : Candidate) (pending : Pending) :
    applyAll candidate pending attributes = attributes.foldl lay candidate := by
  induction attributes generalizing candidate pending with
  | nil => rfl
  | cons a attributes ih =>
    have ha := h a List.mem_cons_self
    have happly : (a.apply candidate pending).1 = lay candidate a := by
      cases a with
      | fallback value => exact ha.elim
      | word names => exact ha.elim
      | environment variableName behind => cases behind <;> rfl
      | _ => rfl
    rw [applyAll, List.foldl_cons, happly, ih fun b hb => h b (List.mem_cons_of_mem _ hb)]

end Attribute

/-! ## The attributes of a candidate -/

namespace Candidate

open Attribute

/-- The attributes that make up a candidate, in the order in which they are written. -/
def attributes (c : Candidate) : List Attribute :=
  (if c.required then [required] else []) ++
  ((if c.inherited then [inherited] else []) ++
  ((if c.fromParent then [fromParent] else []) ++
  ((c.parser.toList.map fun function => parser (some function)) ++
  ((c.generator.toList.map fun function => generator (some function)) ++
  ((if c.aliases = [] then [] else [aka c.aliases]) ++
  ((c.envVar.toList.map fun variableName => environment variableName none) ++
  (c.defaultValue.toList.map fun value => defaultValue value)))))))

/-- Laying an attribute that is written only if it holds sets whether it holds. -/
theorem foldl_lay_flag (a : Attribute) (set : Candidate → Bool → Candidate)
    (hset : ∀ c, lay c a = set c true) (b : Bool) {c : Candidate} (hc : set c false = c) :
    (if b then [a] else []).foldl lay c = set c b := by
  cases b with
  | false => exact hc.symm
  | true => exact hset c

/-- Laying an attribute that is written only if it has a value sets the value. -/
theorem foldl_lay_value {α : Type} (f : α → Attribute) (set : Candidate → Option α → Candidate)
    (hset : ∀ c value, lay c (f value) = set c (some value)) (value : Option α) {c : Candidate}
    (hc : set c none = c) : (value.toList.map f).foldl lay c = set c value := by
  cases value with
  | none => exact hc.symm
  | some value => exact hset c value

/-- Laying further names sets the names. -/
theorem foldl_lay_aliases (names : List String) {c : Candidate} (hc : c.aliases = []) :
    (if names = [] then [] else [aka names]).foldl lay c = { c with aliases := names } := by
  split
  · next hempty =>
    rw [hempty, ← hc]
    rfl
  · change { c with aliases := c.aliases ++ names } = { c with aliases := names }
    rw [hc, List.nil_append]

/-- The part of a candidate that its attributes hold. -/
def attributed (c : Candidate) : Candidate :=
  { required := c.required, inherited := c.inherited, fromParent := c.fromParent, parser := c.parser,
    generator := c.generator, aliases := c.aliases, envVar := c.envVar, defaultValue := c.defaultValue }

/-- Laid into an empty candidate, the attributes give the part that they hold. -/
theorem foldl_attributes (c : Candidate) : c.attributes.foldl lay {} = c.attributed := by
  simp only [attributes, List.foldl_append]
  rw [foldl_lay_flag required (fun x b => { x with required := b }) (fun _ => rfl) _ rfl,
    foldl_lay_flag inherited (fun x b => { x with inherited := b }) (fun _ => rfl) _ rfl,
    foldl_lay_flag fromParent (fun x b => { x with fromParent := b }) (fun _ => rfl) _ rfl,
    foldl_lay_value (fun function => parser (some function)) (fun x value => { x with parser := value })
      (fun _ _ => rfl) _ rfl,
    foldl_lay_value (fun function => generator (some function)) (fun x value => { x with generator := value })
      (fun _ _ => rfl) _ rfl,
    foldl_lay_aliases _ rfl,
    foldl_lay_value (environment · none) (fun x value => { x with envVar := value }) (fun _ _ => rfl) _ rfl,
    foldl_lay_value defaultValue (fun x value => { x with defaultValue := value }) (fun _ _ => rfl) _ rfl]
  rfl

/-- Reading a block gives what the candidate had to say in it. -/
theorem readAttributes_block {c : Candidate} (h : ∀ a ∈ c.attributes, a.IsWritable) :
    readAttributes (block c.attributes) {} = c.attributed := by
  have hread : (c.attributes.map written).map ofEntry = c.attributes := by
    rw [List.map_map]
    exact (List.map_congr_left fun a ha => ofEntry_written (h a ha)).trans (List.map_id _)
  rw [readAttributes, entries_block h, hread, applyAll_eq_foldl h, foldl_attributes]

end Candidate

end CommandDoc
