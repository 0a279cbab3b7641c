import Mathlib.Data.List.Nodup
import Mathlib.Data.List.Perm.Basic
import CommandDoc.Proofs.Param.Attributes

/-!
# The order of attributes

A block consists of groups: an attribute that stands for itself, and behind a list of names further names of
that list.  Each group sets its own field, whatever attribute stands in front of it.  So groups for different
fields can stand in any order, with either separator between any two entries.

Main definitions:

- `Attribute.Group`: the groups of a block, with `Group.entries` as they are written.
- `Attribute.Group.Field` and `Group.target`: what a group sets.
- `Attribute.Group.lay`: a group laid into a candidate.

Main results:

- Theorem `Attribute.Group.readAttributes_eq_foldl`: reading a block lays its groups one after another.
- Theorem `Attribute.Group.lay_comm`: groups for different fields commute.
- Theorem `Attribute.Group.readAttributes_eq_of_perm`: the order of the groups does not matter.
-/

namespace CommandDoc

open Text

namespace Attribute

/-! ## Further names -/

/-- The words that are attributes by themselves. -/
def attributeWords : List (List Char) :=
  ["required".toList, "global".toList, "inherited".toList, "fromparent".toList]

/-- A further name: ASCII letters, digits and dashes that are no attribute by themselves. -/
structure IsFurtherName (name : List Char) : Prop where
  /-- There is something in it. -/
  ne_nil : name ≠ []
  /-- No character is anything else. -/
  forall_mem : ∀ c ∈ name, c.isAlphanum = true ∨ c = '-'
  /-- It is no attribute, in whatever case it is written. -/
  not_attribute : asciiLower name ∉ attributeWords

theorem isFurtherName_iff {name : List Char} :
    IsFurtherName name ↔ name ≠ [] ∧ (name.all fun c => c.isAlphanum = true ∨ c = '-') = true ∧
      asciiLower name ∉ attributeWords := by
  simp only [List.all_eq_true, decide_eq_true_eq]
  exact ⟨fun h => ⟨h.ne_nil, h.forall_mem, h.not_attribute⟩, fun h => ⟨h.1, h.2.1, h.2.2⟩⟩

instance : DecidablePred IsFurtherName := fun _ => decidable_of_iff _ isFurtherName_iff.symm

theorem IsFurtherName.not_mem {name : List Char} (h : IsFurtherName name) {c : Char}
    (hc : c.isAlphanum = false) (hdash : c ≠ '-') : c ∉ name := by
  intro hmem
  rcases h.forall_mem c hmem with halphanum | hdash'
  · rw [hc] at halphanum
    cases halphanum
  · exact hdash hdash'

theorem IsFurtherName.forall_isBlank {name : List Char} (h : IsFurtherName name) :
    ∀ c ∈ name, isBlank c = false := by
  intro c hc
  rcases h.forall_mem c hc with halphanum | rfl
  · exact isBlank_eq_false_of_isAlphanum halphanum
  · decide

/-- A keyword with a colon does not start an entry without one. -/
theorem keywordValue?_eq_none {keyword : String} (hkeyword : ':' ∈ keyword.toList) {entry : List Char}
    (h : ':' ∉ entry) : keywordValue? keyword entry = none := by
  rw [keywordValue?, Option.map_eq_none_iff, Option.eq_none_iff_forall_ne_some]
  intro rest hrest
  obtain ⟨xs, rfl, hxs⟩ := afterWord?_eq_some_iff.mp hrest
  rw [← hxs, List.mem_map] at hkeyword
  obtain ⟨c, hc, hlower⟩ := hkeyword
  rw [eq_of_toLower_eq (by decide) hlower] at hc
  exact h (List.mem_append_left _ hc)

/-- An environment variable stands behind blanks. -/
theorem environment?_eq_none {entry : List Char} (h : ∀ c ∈ entry, isBlank c = false) :
    environment? entry = none := by
  rw [environment?]
  cases hword : afterWord? foldLetter "default".toList entry with
  | none => rfl
  | some rest =>
    obtain ⟨xs, rfl, -⟩ := afterWord?_eq_some_iff.mp hword
    have hblanks : afterBlanks? rest = none := by
      cases rest with
      | nil => rfl
      | cons c rest =>
        rw [afterBlanks?, h c (by simp)]
        rfl
    simp only [Option.bind_eq_bind, Option.bind_some, hblanks, Option.bind_none]

theorem foldLetter_eq_toLower {c : Char} (h : c.isAlphanum = true ∨ c = '-') : foldLetter c = c.toLower := by
  have hsmall : c.toNat ≤ 122 := by
    rcases h with h | rfl
    · unfold Char.isAlphanum Char.isAlpha Char.isUpper Char.isLower Char.isDigit at h
      simp only [Bool.or_eq_true, Bool.and_eq_true, decide_eq_true_eq, ge_iff_le, UInt32.le_iff_toNat_le,
        Char.reduceVal, UInt32.reduceToNat] at h
      change c.val.toNat ≤ 122
      omega
    · decide
  rw [foldLetter, if_neg (by simp; omega), if_neg (by simp; omega)]

/-- A further name does not hand the parameter to its parent. -/
theorem isFromParent_eq_false {name : List Char} (h : IsFurtherName name) : isFromParent name = false := by
  rw [← Bool.not_eq_true]
  intro hparent
  rw [isFromParent] at hparent
  split at hparent
  · cases hparent
  · next rest hfrom =>
    obtain ⟨front, rfl, hfront⟩ := afterWord?_eq_some_iff.mp hfrom
    have hcolon : ∀ behind, rest ≠ ':' :: behind := by
      rintro behind rfl
      exact h.not_mem (by decide) (by decide) (List.mem_append_right front List.mem_cons_self)
    have htrim : trimStart rest = rest :=
      (trim_eq_self_iff.mp (trim_of_forall_not_isBlank fun c hc =>
        h.forall_isBlank c (List.mem_append_right _ hc))).1
    dsimp only at hparent
    split at hparent
    · next behind => exact hcolon behind rfl
    · rw [htrim, beq_iff_eq] at hparent
      obtain ⟨back, hback, hback'⟩ := afterWord?_eq_some_iff.mp hparent
      rw [List.append_nil] at hback
      refine h.not_attribute ?_
      have hlower : asciiLower (front ++ rest) = (front ++ rest).map foldLetter :=
        List.map_congr_left fun c hc => (foldLetter_eq_toLower (h.forall_mem c hc)).symm
      rw [hlower, List.map_append, hfront, hback, hback']
      decide

/-- A further name is read as a word, which means something only in a list of names. -/
theorem ofEntry_furtherName {name : List Char} (h : IsFurtherName name) :
    ofEntry name = word (aliasNames name) := by
  have hcolon : ':' ∉ name := h.not_mem (by decide) (by decide)
  have hkeyword : keyword? name = none := by
    rw [keyword?, keywordValue?_eq_none (by decide) hcolon, keywordValue?_eq_none (by decide) hcolon,
      keywordValue?_eq_none (by decide) hcolon, keywordValue?_eq_none (by decide) hcolon,
      keywordValue?_eq_none (by decide) hcolon, environment?_eq_none h.forall_isBlank]
    rfl
  have hword : isWord name = true := by
    rw [isWord]
    simpa [hcolon] using h.forall_isBlank
  have hnot := h.not_attribute
  simp only [attributeWords, List.mem_cons, List.not_mem_nil, or_false, not_or] at hnot
  rw [ofEntry]
  simp only [beq_iff_eq, hnot, if_false, Bool.or_eq_true, or_self, isFromParent_eq_false h, hkeyword, hword,
    if_true, Bool.false_eq_true]

/-! ## Groups -/

/-- Entries of a block that belong together. -/
inductive Group where
  /-- A value must be given. -/
  | required
  /-- Subcommands see the parameter too; there are two words for it. -/
  | inherited (isGlobal : Bool)
  /-- A command above declares the parameter. -/
  | fromParent
  /-- The function that reads the value. -/
  | parser (reference : List Char)
  /-- The function that makes a value. -/
  | generator (reference : List Char)
  /-- Further names of the flag. -/
  | aka (first : List Char) (more : List (List Char))
  /-- The environment variable that gives the value. -/
  | environment (variableName : String)
  /-- The value taken when none is given. -/
  | defaultValue (value : List Char)
  deriving DecidableEq

namespace Group

/-- The entries of a group, as they are written. -/
def entries : Group → List (List Char)
  | required => ["required".toList]
  | inherited isGlobal => [if isGlobal then "global".toList else "inherited".toList]
  | fromParent => ["from: parent".toList]
  | parser reference => ["parser:".toList ++ ' ' :: reference]
  | generator reference => ["generator:".toList ++ ' ' :: reference]
  | aka first more => ("aka:".toList ++ ' ' :: first) :: more
  | environment variableName => ["default from environment".toList ++ ' ' :: variableName.toList]
  | defaultValue value => ["default:".toList ++ ' ' :: value]

/-- A group that can be written into a block. -/
def IsWritable : Group → Prop
  | required | inherited _ | fromParent => True
  | parser text | generator text | defaultValue text => IsEnclosed [';', ','] text
  | aka first more => ∀ name ∈ first :: more, IsFurtherName name
  | environment variableName => IsIdentifier variableName.toList

/-- The fields that attributes set. -/
inductive Field where
  | required
  | inherited
  | fromParent
  | parser
  | generator
  | aliases
  | envVar
  | defaultValue
  deriving DecidableEq

/-- The field that a group sets. -/
def target : Group → Field
  | required => .required
  | inherited _ => .inherited
  | fromParent => .fromParent
  | parser _ => .parser
  | generator _ => .generator
  | aka _ _ => .aliases
  | environment _ => .envVar
  | defaultValue _ => .defaultValue

/-- Lay a group into a candidate. -/
def lay (c : Candidate) : Group → Candidate
  | required => { c with required := true }
  | inherited _ => { c with inherited := true }
  | fromParent => { c with fromParent := true }
  | parser reference => { c with parser := FunctionRef.ofChars? (trim reference) }
  | generator reference => { c with generator := FunctionRef.ofChars? (trim reference) }
  | aka first more => { c with aliases := c.aliases ++ (first :: more).flatMap aliasNames }
  | environment variableName => { c with envVar := some variableName }
  | defaultValue value => { c with defaultValue := some (String.ofList (unquote (trim value))) }

/-! ## Reading the entries of a group -/

/-- A keyword before an enclosed value is enclosed with it. -/
theorem isEnclosed_keyword_append {keyword value : List Char}
    (hkeyword : (keyword.all fun c => c ∉ ['"', '(', ')', '\\'] ∧ c ∉ [';', ',']) = true)
    (hvalue : IsEnclosed [';', ','] value) : IsEnclosed [';', ','] (keyword ++ ' ' :: value) := by
  rw [List.append_cons]
  exact ((IsBalanced.of_all hkeyword).append (.of_all (by decide))).isEnclosed.append hvalue

theorem trim_keyword_append {keyword : List Char} (hne : keyword ≠ []) (hkeyword : trim keyword = keyword)
    (value : List Char) : trim (keyword ++ ' ' :: value) = keyword ++ trimEnd (' ' :: value) := by
  obtain ⟨hstart, hend⟩ := trim_eq_self_iff.mp hkeyword
  rw [trim, trimStart_append hne hstart, trimEnd_append_left hend]

theorem trim_trimEnd_cons_space (value : List Char) : trim (trimEnd (' ' :: value)) = trim value := by
  rw [trim_trimEnd, trim_cons_blank (by decide)]

theorem isEnclosed_furtherName {name : List Char} (h : IsFurtherName name) : IsEnclosed [';', ','] name := by
  have hforeign : ∀ c ∈ ['"', '(', ')', '\\'] ++ [';', ','], c.isAlphanum = false ∧ c ≠ '-' :=
    List.all_iff_forall_prop.mp (by decide)
  have hnot : ∀ c ∈ name, c ∉ ['"', '(', ')', '\\'] ++ [';', ','] := fun c hc hmem =>
    h.not_mem (hforeign c hmem).1 (hforeign c hmem).2 hc
  exact (IsBalanced.of_forall fun c hc => not_or.mp (mt List.mem_append.mpr (hnot c hc))).isEnclosed

/-- The entries of a group can stand between separators. -/
theorem isEnclosed_of_mem_entries {g : Group} (h : g.IsWritable) :
    ∀ entry ∈ g.entries, IsEnclosed [';', ','] entry ∧ trim entry ≠ [] := by
  have hkeyword : ∀ {keyword value : List Char}, keyword ≠ [] → trim keyword = keyword →
      (keyword.all fun c => c ∉ ['"', '(', ')', '\\'] ∧ c ∉ [';', ',']) = true →
        IsEnclosed [';', ','] value →
          IsEnclosed [';', ','] (keyword ++ ' ' :: value) ∧ trim (keyword ++ ' ' :: value) ≠ [] := by
    intro keyword value hne htrim hplain hvalue
    refine ⟨isEnclosed_keyword_append hplain hvalue, ?_⟩
    rw [trim_keyword_append hne htrim]
    exact List.append_ne_nil_of_left_ne_nil hne _
  have hfixed : ∀ {entry : List Char},
      (entry.all fun c => c ∉ ['"', '(', ')', '\\'] ∧ c ∉ [';', ',']) = true → trim entry ≠ [] →
        IsEnclosed [';', ','] entry ∧ trim entry ≠ [] := fun hplain hne =>
    ⟨(IsBalanced.of_all hplain).isEnclosed, hne⟩
  intro entry hentry
  cases g with
  | required =>
    rw [List.mem_singleton.mp hentry]
    exact hfixed (by decide) (by decide)
  | inherited isGlobal =>
    rw [List.mem_singleton.mp hentry]
    cases isGlobal with
    | false => exact hfixed (by decide) (by decide)
    | true => exact hfixed (by decide) (by decide)
  | fromParent =>
    rw [List.mem_singleton.mp hentry]
    exact hfixed (by decide) (by decide)
  | parser reference =>
    rw [List.mem_singleton.mp hentry]
    exact hkeyword (by decide) (by decide) (by decide) h
  | generator reference =>
    rw [List.mem_singleton.mp hentry]
    exact hkeyword (by decide) (by decide) (by decide) h
  | aka first more =>
    rcases List.mem_cons.mp hentry with rfl | hmore
    · exact hkeyword (by decide) (by decide) (by decide) (isEnclosed_furtherName (h first List.mem_cons_self))
    · have hname := h entry (List.mem_cons_of_mem _ hmore)
      rw [trim_of_forall_not_isBlank hname.forall_isBlank]
      exact ⟨isEnclosed_furtherName hname, hname.ne_nil⟩
  | environment variableName =>
    rw [List.mem_singleton.mp hentry]
    have hwritten := isEntry_written (a := .environment variableName none) ⟨h, rfl⟩
    rw [← written_environment variableName none, hwritten.trim_eq]
    exact ⟨hwritten.isBalanced.isEnclosed, hwritten.ne_nil⟩
  | defaultValue value =>
    rw [List.mem_singleton.mp hentry]
    exact hkeyword (by decide) (by decide) (by decide) h

/-- The attributes of a group. -/
def attributes : Group → List Attribute
  | required => [.required]
  | inherited _ => [.inherited]
  | fromParent => [.fromParent]
  | parser reference => [.parser (FunctionRef.ofChars? (trim reference))]
  | generator reference => [.generator (FunctionRef.ofChars? (trim reference))]
  | aka first more => .aka (aliasNames first) :: more.map fun name => .word (aliasNames name)
  | environment variableName => [.environment variableName none]
  | defaultValue value => [.defaultValue (String.ofList (unquote (trim value)))]

/-- Each entry of a group is read by itself as one of its attributes. -/
theorem map_ofEntry_entries {g : Group} (h : g.IsWritable) :
    (g.entries.map trim).map ofEntry = g.attributes := by
  cases g with
  | required => rfl
  | inherited isGlobal => cases isGlobal <;> rfl
  | fromParent => rfl
  | parser reference =>
    rw [entries, List.map_singleton, List.map_singleton, trim_keyword_append (by decide) (by decide),
      ofEntry_parser_append, trim_trimEnd_cons_space, attributes]
  | generator reference =>
    rw [entries, List.map_singleton, List.map_singleton, trim_keyword_append (by decide) (by decide),
      ofEntry_generator_append, trim_trimEnd_cons_space, attributes]
  | aka first more =>
    have hnames : ∀ name ∈ first :: more, trim name = name := fun name hname =>
      trim_of_forall_not_isBlank (h name hname).forall_isBlank
    have hmore : (more.map trim).map ofEntry = more.map fun name => .word (aliasNames name) := by
      rw [List.map_map]
      refine List.map_congr_left fun name hname => ?_
      rw [Function.comp_apply, hnames name (List.mem_cons_of_mem _ hname),
        ofEntry_furtherName (h name (List.mem_cons_of_mem _ hname))]
    rw [entries, List.map_cons, List.map_cons, trim_keyword_append (by decide) (by decide),
      ofEntry_aka_append, trim_trimEnd_cons_space, hnames first List.mem_cons_self, hmore, attributes]
  | environment variableName =>
    have hwritten : IsWritable (.environment variableName) → Attribute.IsWritable (.environment variableName none) :=
      fun hname => ⟨hname, rfl⟩
    rw [entries, ← written_environment variableName none, List.map_singleton, List.map_singleton,
      (isEntry_written (hwritten h)).trim_eq, ofEntry_written (hwritten h), attributes]
  | defaultValue value =>
    rw [entries, List.map_singleton, List.map_singleton, trim_keyword_append (by decide) (by decide),
      ofEntry_defaultValue_append, trim_trimEnd_cons_space, attributes]

/-! ## Laying groups into a candidate -/

/-- Words behind a list of names are further names of it. -/
theorem applyAll_words (c : Candidate) (names : List (List String)) (rest : List Attribute) :
    applyAll c .names (names.map word ++ rest)
      = applyAll { c with aliases := c.aliases ++ names.flatten } .names rest := by
  induction names generalizing c with
  | nil => rw [List.flatten_nil, List.append_nil, List.map_nil, List.nil_append]
  | cons first names ih =>
    rw [List.map_cons, List.cons_append, applyAll, apply, ih, List.flatten_cons, List.append_assoc]

/-- A group is laid into a candidate alike, whatever stands in front of it. -/
theorem exists_applyAll_attributes (g : Group) (c : Candidate) (pending : Pending) :
    ∃ next, ∀ rest, applyAll c pending (g.attributes ++ rest) = applyAll (lay c g) next rest := by
  cases g with
  | aka first more =>
    refine ⟨.names, fun rest => ?_⟩
    have hmore : (more.map fun name => Attribute.word (aliasNames name)) = (more.map aliasNames).map word := by
      rw [List.map_map]
      rfl
    rw [attributes, hmore, List.cons_append, applyAll, apply, applyAll_words, lay, List.flatMap_cons,
      List.append_assoc, List.flatMap_def]
  | environment variableName => exact ⟨.variableName, fun _ => rfl⟩
  | _ => exact ⟨.nothing, fun _ => rfl⟩

/-- Applying the attributes of all groups lays one group after the other. -/
theorem applyAll_flatMap_attributes (groups : List Group) (c : Candidate) (pending : Pending) :
    applyAll c pending (groups.flatMap attributes) = groups.foldl lay c := by
  induction groups generalizing c pending with
  | nil => rfl
  | cons g groups ih =>
    obtain ⟨next, hnext⟩ := exists_applyAll_attributes g c pending
    rw [List.flatMap_cons, hnext, ih, List.foldl_cons]

/-- Reading a block lays its groups into the candidate one after another. -/
theorem readAttributes_eq_foldl {groups : List Group} (h : ∀ g ∈ groups, g.IsWritable) {block : List Char}
    (hblock : IsJoined [';', ','] (groups.flatMap entries) block) (c : Candidate) :
    readAttributes block c = groups.foldl lay c := by
  have hentries : ∀ entry ∈ groups.flatMap entries, IsEnclosed [';', ','] entry ∧ trim entry ≠ [] := by
    intro entry hentry
    obtain ⟨g, hg, hmem⟩ := List.mem_flatMap.mp hentry
    exact isEnclosed_of_mem_entries (h g hg) entry hmem
  have hread : ((groups.flatMap entries).map trim).map ofEntry = groups.flatMap attributes := by
    rw [List.map_flatMap, List.map_flatMap]
    exact List.flatMap_congr fun g hg => map_ofEntry_entries (h g hg)
  rw [readAttributes, entries_of_isJoined hblock hentries, hread, applyAll_flatMap_attributes]

/-! ## The order of groups -/

/-- Groups for different fields commute. -/
theorem lay_comm {g other : Group} (h : g.target ≠ other.target) (c : Candidate) :
    lay (lay c g) other = lay (lay c other) g := by
  -- Two groups of one kind have the same field; all others change fields that the other one leaves alone.
  cases g <;> cases other <;> first | rfl | exact absurd rfl h

/-- Groups for different fields can stand in any order, with any separators between their entries. -/
theorem readAttributes_eq_of_perm {groups others : List Group} (hperm : groups.Perm others)
    (hwritable : ∀ g ∈ groups, g.IsWritable) (htargets : (groups.map target).Nodup) {block other : List Char}
    (hblock : IsJoined [';', ','] (groups.flatMap entries) block)
    (hother : IsJoined [';', ','] (others.flatMap entries) other) (c : Candidate) :
    readAttributes block c = readAttributes other c := by
  have hcomm : ∀ g ∈ groups, ∀ h ∈ groups, ∀ c, lay (lay c g) h = lay (lay c h) g := by
    intro g hg h hh c
    by_cases heq : g = h
    · rw [heq]
    · exact lay_comm (fun htarget => heq (List.inj_on_of_nodup_map htargets hg hh htarget)) c
  rw [readAttributes_eq_foldl hwritable hblock,
    readAttributes_eq_foldl (fun g hg => hwritable g (hperm.mem_iff.mpr hg)) hother]
  exact hperm.foldl_eq' hcomm c

/-- A list of names, an environment variable and a default value with separators in it. -/
def sampleGroups : List Group :=
  [.aka "n".toList ["x2".toList], .environment "APP_HOME", .defaultValue "\"a;b\" (c, d)".toList]

theorem isJoined_sampleGroups : IsJoined [';', ','] (sampleGroups.flatMap entries)
    "aka: n, x2;default from environment APP_HOME , default: \"a;b\" (c, d)".toList := by
  have hentries : sampleGroups.flatMap entries = ["aka: n".toList, "x2".toList,
      "default from environment APP_HOME".toList, "default: \"a;b\" (c, d)".toList] := by decide +kernel
  have htext : "aka: n, x2;default from environment APP_HOME , default: \"a;b\" (c, d)".toList
      = "aka: n".toList ++ [] ++ ',' :: ([' '] ++ ("x2".toList ++ [] ++ ';' :: ([] ++
        ("default from environment APP_HOME".toList ++ [' '] ++ ',' :: ([' '] ++
          "default: \"a;b\" (c, d)".toList))))) := by decide +kernel
  rw [hentries, htext]
  refine .cons (by decide) (List.all_eq_true.mp (by decide)) ?_
  refine .cons (by decide) (List.all_eq_true.mp (by decide)) ?_
  exact .cons (by decide) (List.all_eq_true.mp (by decide)) (.single _)

theorem isJoined_sampleGroups_reverse : IsJoined [';', ','] (sampleGroups.reverse.flatMap entries)
    "default: \"a;b\" (c, d),default from environment APP_HOME; aka: n; x2".toList := by
  have hentries : sampleGroups.reverse.flatMap entries = ["default: \"a;b\" (c, d)".toList,
      "default from environment APP_HOME".toList, "aka: n".toList, "x2".toList] := by decide +kernel
  have htext : "default: \"a;b\" (c, d),default from environment APP_HOME; aka: n; x2".toList
      = "default: \"a;b\" (c, d)".toList ++ [] ++ ',' :: ([] ++ ("default from environment APP_HOME".toList ++
        [] ++ ';' :: ([' '] ++ ("aka: n".toList ++ [] ++ ';' :: ([' '] ++ "x2".toList))))) := by decide +kernel
  rw [hentries, htext]
  refine .cons (by decide) (List.all_eq_true.mp (by decide)) ?_
  refine .cons (by decide) (List.all_eq_true.mp (by decide)) ?_
  exact .cons (by decide) (List.all_eq_true.mp (by decide)) (.single _)

/-- The sample groups, laid in either order into a candidate that has values for their fields. -/
theorem readAttributes_eq_of_perm_sampleGroups :
    let c : Candidate := { aliases := ["m"], envVar := some "HOME", required := true }
    readAttributes "aka: n, x2;default from environment APP_HOME , default: \"a;b\" (c, d)".toList c
        = readAttributes "default: \"a;b\" (c, d),default from environment APP_HOME; aka: n; x2".toList c ∧
      readAttributes "aka: n, x2;default from environment APP_HOME , default: \"a;b\" (c, d)".toList c
        = { c with
            aliases := ["m", "n", "x2"], envVar := some "APP_HOME", defaultValue := some "\"a;b\" (c, d)" } := by
  have hwritable : ∀ g ∈ sampleGroups, g.IsWritable := by
    intro g hg
    simp only [sampleGroups, List.mem_cons, List.not_mem_nil, or_false] at hg
    rcases hg with rfl | rfl | rfl
    · show ∀ name ∈ ["n".toList, "x2".toList], IsFurtherName name
      decide
    · show IsIdentifier "APP_HOME".toList
      decide
    · exact ⟨by decide, by decide⟩
  exact ⟨readAttributes_eq_of_perm (List.reverse_perm _).symm hwritable (by decide) isJoined_sampleGroups
    isJoined_sampleGroups_reverse _, by decide +kernel⟩

end Group

end Attribute

end CommandDoc
