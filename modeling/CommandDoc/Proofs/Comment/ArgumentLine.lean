import CommandDoc.Proofs.Comment.Directive
import CommandDoc.Proofs.Comment.LineForm
import CommandDoc.Proofs.Param.LostMarker

/-!
# Entries by their markers

Outside flags blocks a line is an entry if it has a marker of an argument.  Whether it has one is asked of the
text as it stands, so the parameter is an argument unless the markers of the text are lost.

Main definitions:

- `CommentLine.IsArgument`: a line outside flags blocks that is an entry by its marker.

Main results:

- Theorem `Directive.candidateOf_positional`: a parameter is an argument if one of its entries says so.
- Theorem `positional_of_hasArgumentMarker`: a text or a line with a marker makes an argument unless its
  markers are lost.
-/

namespace CommandDoc

open Text

/-! ## Laying entries over each other -/

theorem Candidate.foldl_overlay_positional (candidates : List Candidate) (base : Candidate) :
    (candidates.foldl Candidate.overlay base).positional = true ↔
      base.positional = true ∨ ∃ candidate ∈ candidates, candidate.positional = true := by
  induction candidates generalizing base with
  | nil => simp
  | cons candidate candidates ih =>
    have hoverlay : (Candidate.overlay base candidate).positional = true ↔
        base.positional = true ∨ candidate.positional = true := by
      rw [Candidate.overlay, Bool.or_eq_true, or_comm]
    rw [List.foldl_cons, ih, hoverlay, List.exists_mem_cons_iff, or_assoc]

namespace Directive

/-- A parameter is an argument if one of its entries says so. -/
theorem candidateOf_positional {entries : List (String × List Char)} {name : String} {details : List Char}
    (hentry : (name, details) ∈ entries) (h : (Candidate.ofChars details).positional = true) :
    (candidateOf entries name).positional = true := by
  have hmem : (name, details) ∈ entries.filter fun entry => entry.1 == name :=
    List.mem_filter.mpr ⟨hentry, beq_self_eq_true name⟩
  rw [candidateOf, Candidate.foldl_overlay_positional]
  exact Or.inr ⟨_, List.mem_map_of_mem hmem, h⟩

end Directive

/-! ## Lines with markers -/

theorem LineForm.hasArgumentMarker_of_argumentLine? {cs details : List Char} {name : String}
    (h : argumentLine? cs = some (.entry name details)) : Marker.hasArgumentMarker details = true := by
  obtain ⟨_, _, _, -, -, -, hmarker, hentry⟩ := argumentLine?_eq_some_iff.mp h
  rw [(entry.inj hentry).2]
  exact hmarker

/-- A line outside flags blocks that is an entry because its text has a marker of an argument. -/
structure CommentLine.IsArgument (line : CommentLine) (name : String) (details : List Char) : Prop where
  /-- It is no line of a flags block. -/
  inFlags_eq : line.inFlags = false
  /-- A marker stands in its text. -/
  argumentLine?_eq : LineForm.argumentLine? (trim line.text) = some (.entry name details)
  /-- It is nothing else, such as a declaration. -/
  form_eq : line.form = .entry name details

/-- A text with a marker of an argument makes an argument of its parameter unless its markers are lost, and so
does a line that is an entry by its marker. -/
theorem positional_of_hasArgumentMarker :
    (∀ text : String, Marker.hasArgumentMarker text.toList = true →
      ((Candidate.ofText text).positional = true ↔ ¬ Candidate.LosesMarkers text.toList)) ∧
    ∀ (function doc : String) (line : CommentLine) (name : String) (details : List Char),
      line ∈ commentLines doc → line.IsArgument name details → ¬ Candidate.LosesMarkers details →
        ∃ candidate, (name, candidate) ∈ (readComment function doc).1.params ∧
          candidate.positional = true := by
  constructor
  · intro text hmarker
    exact Candidate.ofChars_positional_iff hmarker
  · intro function doc line name details hline hargument hkept
    have hmarker := LineForm.hasArgumentMarker_of_argumentLine? hargument.argumentLine?_eq
    have hform : .entry name details ∈ (commentLines doc).map (·.form) :=
      List.mem_map.mpr ⟨line, hline, hargument.form_eq⟩
    exact ⟨_, Directive.mem_params_iff.mpr ⟨⟨details, hform⟩, rfl⟩,
      Directive.candidateOf_positional (Directive.mem_entriesOf_iff.mpr hform)
        ((Candidate.ofChars_positional_iff hmarker).mpr hkept)⟩

/-- A position behind an attribute block and a default value, in a comment. -/
def argumentComment : String :=
  "Run is a subcommand \x60app run\x60\nid: (required) default: a1 @1 the identifier"

/-- What is taken out of its entry holds no marker. -/
theorem positional_of_hasArgumentMarker_argumentComment :
    let details := "(required) default: a1 @1 the identifier"
    let line : CommentLine := ⟨("id: " ++ details).toList, false, .entry "id" details.toList⟩
    Marker.hasArgumentMarker details.toList = true ∧ ¬ Candidate.LosesMarkers details.toList ∧
      (Candidate.ofText details).positional = true ∧
      line ∈ commentLines argumentComment ∧ line.IsArgument "id" details.toList ∧
      ∃ candidate, ("id", candidate) ∈ (readComment "Run" argumentComment).1.params ∧
        candidate.positional = true := by
  intro details line
  have hmarker : Marker.hasArgumentMarker details.toList = true := by decide +kernel
  have hkept : ¬ Candidate.LosesMarkers details.toList := by
    rw [← Candidate.ofChars_positional_iff hmarker]
    decide +kernel
  have hline : line ∈ commentLines argumentComment := by decide +kernel
  have hargument : line.IsArgument "id" details.toList := ⟨rfl, by decide +kernel, rfl⟩
  exact ⟨hmarker, hkept, (positional_of_hasArgumentMarker.1 details hmarker).mpr hkept, hline, hargument,
    positional_of_hasArgumentMarker.2 "Run" argumentComment line "id" details.toList hline hargument hkept⟩

/-- A position of zero is none, and the block and the default value are taken out with the markers in them. -/
theorem hasArgumentMarker_not_positional :
    (Marker.hasArgumentMarker "@0 the thing".toList = true ∧
        (Candidate.ofText "@0 the thing").positional = false) ∧
      (Marker.hasArgumentMarker "( @1 the thing)".toList = true ∧
        (Candidate.ofText "( @1 the thing)").positional = false) ∧
      (Marker.hasArgumentMarker "default: @1".toList = true ∧
        (Candidate.ofText "default: @1").positional = false) ∧
      (readComment "Run" "Run is a subcommand \x60app run\x60\nid: @0 the thing").1.params.map
        (fun param => (param.1, param.2.positional)) = [("id", false)] := by
  decide +kernel

end CommandDoc
