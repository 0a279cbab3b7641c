import CommandDoc.Param.Description
import CommandDoc.Proofs.Comment.LineForm
import CommandDoc.Proofs.Ordered
import CommandDoc.Proofs.Param.Markers
import CommandDoc.Proofs.Text.LetterCase

/-!
# What remains of a text

A text without a colon gives no default value, and when the markers are gone words of letters remain as they
are.

Main results:

- Theorem `InlineDefault.find?_eq_none`: a default value needs a colon.
- Theorem `cleanDescription_of_collapse`: only the blanks around words of letters are dropped.
- Theorem `canonicalFlags_eq_self`: names of flags in canonical order stay as they are.
-/

namespace CommandDoc

open Text

/-! ## The default value -/

namespace InlineDefault

/-- Text without a colon has no keyword. -/
theorem splitKeyword?_eq_none {previous : Option Char} {cs : List Char} (h : ':' ∉ cs) :
    splitKeyword? previous cs = none := by
  induction cs generalizing previous with
  | nil => rfl
  | cons c cs ih =>
    have hkeyword : afterWord? foldLetter "default:".toList (c :: cs) = none := by
      rw [Option.eq_none_iff_forall_ne_some]
      exact fun rest hrest => h (mem_of_afterWord?_foldLetter hrest (by decide) (by decide))
    rw [splitKeyword?, hkeyword, ite_self, ih fun hc => h (List.mem_cons_of_mem _ hc)]
    rfl

/-- A default value needs a colon. -/
theorem find?_eq_none {cs : List Char} (h : ':' ∉ cs) : find? cs = none := by
  rw [find?, splitKeyword?_eq_none h]
  rfl

end InlineDefault

/-! ## The description -/

/-- A word of ASCII letters. -/
def IsProse (w : List Char) : Prop :=
  w ≠ [] ∧ ∀ c ∈ w, c.isAlpha = true

/-- Being a word of prose is decided by its characters. -/
theorem isProse_iff {w : List Char} : IsProse w ↔ w ≠ [] ∧ w.all Char.isAlpha = true := by
  rw [IsProse, List.all_eq_true]

instance : DecidablePred IsProse := fun _ => decidable_of_iff _ isProse_iff.symm

/-- A word of prose has no blank in it. -/
theorem IsProse.forall_isBlank {w : List Char} (h : IsProse w) : ∀ c ∈ w, isBlank c = false :=
  fun c hc => isBlank_eq_false_of_isAlphanum (by rw [Char.isAlphanum, h.2 c hc, Bool.true_or])

/-- Text without brackets has no empty pair of them. -/
theorem misses_emptyBrackets {cs : List Char} (hround : '(' ∉ cs) (hsquare : '[' ∉ cs)
    (before : Option Char) : Misses Marker.emptyBrackets before cs [] := by
  have hbetween : ∀ opening closing zs, opening ∉ zs → Marker.emptyBetween opening closing zs = none := by
    intro opening closing zs hzs
    cases zs with
    | nil => rfl
    | cons c zs =>
      have hc : c ≠ opening := fun h => hzs (by rw [h]; exact List.mem_cons_self)
      rw [Marker.emptyBetween, if_pos (by simpa using hc)]
  refine misses_of_forall_suffix (Marker.emptyBrackets none) (fun _ _ _ h _ => h) fun zs hzs => ?_
  rw [List.append_nil, Marker.emptyBrackets, hbetween _ _ _ fun h => hround (hzs.subset h),
    hbetween _ _ _ fun h => hsquare (hzs.subset h)]
  rfl

/-- Text without a comma starts with no run of commas. -/
theorem commaRun_eq_zero {cs : List Char} (h : ',' ∉ cs) (gap : Nat) : Marker.commaRun gap cs = (0, 0) := by
  induction cs generalizing gap with
  | nil => rfl
  | cons c cs ih =>
    rw [List.mem_cons, not_or] at h
    rw [Marker.commaRun, if_neg (by simpa using Ne.symm h.1), ih h.2, ite_self]

/-- Text without a comma has no repeated one. -/
theorem misses_repeatedCommas {cs : List Char} (h : ',' ∉ cs) (before : Option Char) :
    Misses Marker.repeatedCommas before cs [] := by
  refine misses_of_forall_suffix (Marker.repeatedCommas none) (fun _ _ _ h _ => h) fun zs hzs => ?_
  rw [List.append_nil, Marker.repeatedCommas, commaRun_eq_zero fun hc => h (hzs.subset hc)]
  rfl

/-- Text without a comma has no comma to close up. -/
theorem closeCommas_eq_self {cs : List Char} (h : ',' ∉ cs) : closeCommas cs = cs := by
  induction cs with
  | nil => rfl
  | cons c cs ih =>
    rw [List.mem_cons, not_or] at h
    rw [closeCommas, ih h.2]
    rintro rest - rfl
    exact h.2 List.mem_cons_self

/-- Closing up commas only removes characters. -/
theorem closeCommas_sublist (cs : List Char) : (closeCommas cs).Sublist cs := by
  fun_induction closeCommas cs with
  | case1 cs ih => exact (ih.cons_cons _).cons _
  | case2 c cs hnot ih => exact ih.cons_cons _
  | case3 => exact List.Sublist.refl _

/-- A letter is debris at neither end. -/
theorem isDebris_eq_false_of_isAlpha {c : Char} (h : c.isAlpha = true) :
    isLeadingDebris c = false ∧ isTrailingDebris c = false := by
  have hblank : isBlank c = false :=
    isBlank_eq_false_of_isAlphanum (by rw [Char.isAlphanum, h, Bool.true_or])
  have hne : ∀ d : Char, d.isAlpha = false → (c == d) = false := by
    intro d hd
    rw [beq_eq_false_iff_ne]
    rintro rfl
    rw [h] at hd
    cases hd
  rw [isLeadingDebris, isTrailingDebris, hblank, hne ',' (by decide), hne ';' (by decide),
    hne ':' (by decide), hne '|' (by decide), hne '/' (by decide), hne '-' (by decide)]
  exact ⟨rfl, rfl⟩

section Prose

variable {ws : List (List Char)}

/-- Prose has no debris in front. -/
theorem dropWhile_unwords (hws : ∀ w ∈ ws, IsProse w) :
    (unwords ws).dropWhile isLeadingDebris = unwords ws := by
  cases ws with
  | nil => rfl
  | cons w ws =>
    obtain ⟨hne, halpha⟩ := hws w List.mem_cons_self
    obtain ⟨c, cs, rfl⟩ := List.exists_cons_of_ne_nil hne
    have hc := (isDebris_eq_false_of_isAlpha (halpha c List.mem_cons_self)).1
    rw [unwords_cons, List.cons_append, List.dropWhile_cons_of_neg (by simp [hc])]

/-- Prose has no debris behind. -/
theorem dropTail_unwords (hws : ∀ w ∈ ws, IsProse w) :
    dropTail isTrailingDebris (unwords ws) = unwords ws := by
  have htrim := (trim_eq_self_iff.mp (trim_unwords fun w hw => ⟨(hws w hw).1, (hws w hw).forall_isBlank⟩)).2
  rw [trimEnd, dropTail_eq_rdropWhile, List.rdropWhile_eq_self_iff] at htrim
  rw [dropTail_eq_rdropWhile, List.rdropWhile_eq_self_iff]
  intro hne
  rcases mem_unwords (List.getLast_mem hne) with hspace | ⟨w, hw, hlast⟩
  · exact absurd (by rw [hspace]; decide) (htrim hne)
  · rw [(isDebris_eq_false_of_isAlpha ((hws w hw).2 _ hlast)).2]
    exact Bool.false_ne_true

/-- Prose holds no sign but the space. -/
theorem not_mem_unwords_of_isProse (hws : ∀ w ∈ ws, IsProse w) {d : Char} (hspace : d ≠ ' ')
    (hd : d.isAlpha = false) : d ∉ unwords ws := by
  refine not_mem_unwords hspace fun w hw hmem => ?_
  rw [(hws w hw).2 d hmem] at hd
  cases hd

/-- Collapsing the blanks of indented prose leaves the prose. -/
theorem collapse_replicate_append_unwords (hws : ∀ w ∈ ws, IsProse w) (n : Nat) :
    collapse (List.replicate n ' ' ++ unwords ws) = unwords ws := by
  have hblank : ∀ c ∈ List.replicate n ' ', isBlank c = true := by
    intro c hc
    rw [List.eq_of_mem_replicate hc]
    decide
  rw [collapse_append_of_isBlank hblank,
    collapse_unwords fun w hw => ⟨(hws w hw).1, (hws w hw).forall_isBlank⟩]

/-- A text that collapses to words of letters has nothing but letters and blanks. -/
theorem not_mem_of_collapse (hws : ∀ w ∈ ws, IsProse w) {cs : List Char} (hcs : collapse cs = unwords ws)
    {d : Char} (hblank : isBlank d = false) (hd : d.isAlpha = false) : d ∉ cs := by
  have hspace : d ≠ ' ' := by
    rintro rfl
    exact absurd hblank (by decide)
  intro hmem
  exact not_mem_unwords_of_isProse hws hspace hd (hcs ▸ mem_collapse hmem hblank)

/-- Only the blanks around words of letters are dropped. -/
theorem cleanDescription_of_collapse (hws : ∀ w ∈ ws, IsProse w) {cs : List Char}
    (hcs : collapse cs = unwords ws) : cleanDescription cs = unwords ws := by
  rw [cleanDescription,
    replaceEach_of_misses (misses_emptyBrackets (not_mem_of_collapse hws hcs (by decide) rfl)
      (not_mem_of_collapse hws hcs (by decide) rfl) none),
    replaceEach_of_misses (misses_repeatedCommas (not_mem_of_collapse hws hcs (by decide) rfl) none), hcs,
    closeCommas_eq_self (not_mem_unwords_of_isProse hws (by decide) rfl), dropWhile_unwords hws,
    dropTail_unwords hws]

/-- Words of letters are nothing only if there are none. -/
theorem isEmpty_unwords_iff (hws : ∀ w ∈ ws, IsProse w) : (unwords ws).isEmpty = true ↔ ws = [] := by
  rw [List.isEmpty_iff]
  constructor
  · intro hnil
    by_contra hne
    exact intercalate_ne_nil hne (fun w hw => (hws w hw).1) hnil
  · rintro rfl
    rfl

end Prose

/-! ## The flags -/

/-- The name of a flag has no blank in it. -/
theorem Marker.IsFlagName.forall_isBlank {name : List Char} (h : Marker.IsFlagName name) :
    ∀ c ∈ name, isBlank c = false := by
  intro c hc
  rcases h.forall_mem c hc with halphanum | rfl | rfl
  · exact isBlank_eq_false_of_isAlphanum halphanum
  · decide
  · decide

/-- The name of a flag has no blanks around it and no dashes in front. -/
theorem Marker.IsFlagName.bareFlag {name : String} (h : Marker.IsFlagName name.toList) :
    bareFlag name = name := by
  obtain ⟨c, cs, hname, hc⟩ := h.starts_isAlphanum
  have htrim : trim name.toList = name.toList := trim_of_forall_not_isBlank h.forall_isBlank
  have hdash : ¬(c == '-') = true := by
    rw [beq_iff_eq]
    rintro rfl
    cases hc
  rw [CommandDoc.bareFlag, htrim, hname, List.dropWhile_cons_of_neg (p := (· == '-')) hdash, ← hname,
    String.ofList_toList]

/-- Names of flags have no dashes to lose, so they are only sorted. -/
theorem canonicalFlags_eq_sortDistinct {names : List String}
    (hnames : ∀ name ∈ names, Marker.IsFlagName name.toList) :
    canonicalFlags names = Ordered.sortDistinct flagBefore names := by
  have hbare : names.map bareFlag = names :=
    (List.map_congr_left fun name hname => (hnames name hname).bareFlag).trans (List.map_id _)
  have hfilter : names.filter (fun name => decide (name ≠ "")) = names := by
    rw [List.filter_eq_self]
    rintro name hname
    obtain ⟨c, cs, hname, -⟩ := (hnames name hname).starts_isAlphanum
    rw [decide_eq_true_eq]
    rintro rfl
    cases hname
  rw [canonicalFlags, hbare, hfilter]

/-- Names of flags in canonical order stay as they are. -/
theorem canonicalFlags_eq_self {names : List String} (hnames : ∀ name ∈ names, Marker.IsFlagName name.toList)
    (hsorted : names.Pairwise (flagBefore · · = true)) : canonicalFlags names = names := by
  rw [canonicalFlags_eq_sortDistinct hnames]
  exact Ordered.eq_of_pairwise_of_mem_iff flagBefore_strictOrder
    (Ordered.pairwise_sortDistinct flagBefore_strictOrder names) hsorted
    fun name => Ordered.mem_sortDistinct flagBefore_strictOrder

end CommandDoc
