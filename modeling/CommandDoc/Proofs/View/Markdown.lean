import Mathlib.Algebra.Ring.Nat
import CommandDoc.Build.Basic
import CommandDoc.Proofs.Except
import CommandDoc.Proofs.Name.Identifier
import CommandDoc.View.Markdown

/-!
# Markdown tables

A row of a Markdown table has one cell for each cell of the head.  Cells end at bars, unless a backslash stands in
front of them.  The texts of a parameter are written into its row as they are, so a row has the bars of the head and
those of the texts besides, and it fits the head exactly if no text has a bar of its own.

Main definitions:

- `freeBars`: the bars of a text that no backslash escapes.
- `ParameterTable`: the table of flags and the table of arguments.

Main results:

- Theorem `freeBars_tableRow`: the bars of a row are those around its cells and those in them.
- Theorem `ParameterTable.freeBars_row`: the bars of a row are those of the head and those of the texts in it.
- Theorem `Model.isTabled_markdown`: the tables of a model, and which of their rows fit the head.
-/

namespace CommandDoc

/-! ## Free bars -/

/-- The bars that end a cell, where `escaped` says whether a backslash stands in front. -/
def freeBarsFrom (escaped : Bool) : List Char → Nat
  | [] => 0
  | c :: cs => (if !escaped && c == '|' then 1 else 0) + freeBarsFrom (!escaped && c == '\\') cs

/-- The bars of a text that no backslash escapes. -/
def freeBars (s : String) : Nat :=
  freeBarsFrom false s.toList

/-- Behind a text without a backslash nothing is escaped. -/
theorem freeBars_append {s : String} (hs : '\\' ∉ s.toList) (t : String) :
    freeBars (s ++ t) = freeBars s + freeBars t := by
  rw [freeBars, freeBars, String.toList_append]
  generalize s.toList = xs at hs
  induction xs with
  | nil => simp [freeBarsFrom, freeBars]
  | cons c xs ih =>
    rw [List.mem_cons, not_or] at hs
    have hc : (c == '\\') = false := beq_false_of_ne (Ne.symm hs.1)
    simp only [List.cons_append, freeBarsFrom, hc, Bool.and_false, ih hs.2, Nat.add_assoc]

/-- A text that starts with an ordinary character loses nothing to a backslash in front of it. -/
theorem freeBars_append_of_head? {t : String} (ht : ∃ c ∈ t.toList.head?, c ≠ '|' ∧ c ≠ '\\') (s : String) :
    freeBars (s ++ t) = freeBars s + freeBars t := by
  obtain ⟨c, hc, hbar, hslash⟩ := ht
  obtain ⟨ys, hys⟩ := List.head?_eq_some_iff.mp hc
  have hlist : ∀ (xs : List Char) (escaped : Bool),
      freeBarsFrom escaped (xs ++ c :: ys) = freeBarsFrom escaped xs + freeBarsFrom false (c :: ys) := by
    intro xs
    induction xs with
    | nil =>
      intro escaped
      have hnot : (c == '\\') = false := beq_false_of_ne hslash
      simp [freeBarsFrom, hbar, hnot]
    | cons d xs ih =>
      intro escaped
      simp only [List.cons_append, freeBarsFrom, ih, Nat.add_assoc]
  rw [freeBars, freeBars, freeBars, String.toList_append, hys]
  exact hlist s.toList false

/-- Text without a bar has no free bar. -/
theorem freeBars_eq_zero {s : String} (h : '|' ∉ s.toList) : freeBars s = 0 := by
  have hlist : ∀ (cs : List Char) (escaped : Bool), '|' ∉ cs → freeBarsFrom escaped cs = 0 := by
    intro cs
    induction cs with
    | nil => exact fun _ _ => rfl
    | cons c cs ih =>
      intro escaped hcs
      rw [List.mem_cons, not_or] at hcs
      simp [freeBarsFrom, ih _ hcs.2, Ne.symm hcs.1]
  exact hlist s.toList false h

/-- A text as it stands between two others: an ordinary character starts it, and there is no backslash in it. -/
structure IsCellGap (gap : String) : Prop where
  /-- Neither a bar nor a backslash starts it. -/
  head : ∃ c ∈ gap.toList.head?, c ≠ '|' ∧ c ≠ '\\'
  /-- There is no backslash in it. -/
  unescaped : '\\' ∉ gap.toList

/-- Being a cell gap is decided by its characters. -/
theorem isCellGap_iff {gap : String} :
    IsCellGap gap ↔ (gap.toList.head?.any fun c => c != '|' && c != '\\') = true ∧ '\\' ∉ gap.toList := by
  rw [Option.any_eq_true]
  simp only [Bool.and_eq_true, bne_iff_ne]
  exact ⟨fun h => ⟨h.head, h.unescaped⟩, fun h => ⟨h.1, h.2⟩⟩

instance : DecidablePred IsCellGap := fun _ => decidable_of_iff _ isCellGap_iff.symm

/-- Free bars are counted separately before and behind a cell gap. -/
theorem IsCellGap.freeBars_append {gap : String} (h : IsCellGap gap) (s t : String) :
    freeBars (s ++ gap ++ t) = freeBars s + freeBars gap + freeBars t := by
  have hhead : ∃ c ∈ (gap ++ t).toList.head?, c ≠ '|' ∧ c ≠ '\\' := by
    obtain ⟨c, hc, hplain⟩ := h.head
    exact ⟨c, by rw [String.toList_append]; exact List.mem_head?_append_of_mem_head? hc, hplain⟩
  rw [String.append_assoc, freeBars_append_of_head? hhead, CommandDoc.freeBars_append h.unescaped, Nat.add_assoc]

/-- The bars of texts with gaps between them. -/
theorem IsCellGap.freeBars_intercalate {gap : String} (h : IsCellGap gap) {texts : List String} (hne : texts ≠ []) :
    freeBars (gap.intercalate texts) + freeBars gap
      = (texts.map freeBars).sum + texts.length * freeBars gap := by
  induction texts with
  | nil => exact absurd rfl hne
  | cons s texts ih =>
    by_cases hempty : texts = []
    · simp [hempty, String.intercalate_singleton]
    · rw [String.intercalate_cons_of_ne_nil hempty, h.freeBars_append, Nat.add_assoc, ih hempty, List.map_cons,
        List.sum_cons, List.length_cons, Nat.succ_mul]
      omega

/-! ## Rows -/

/-- The bars of a row are those around its cells and those in them. -/
theorem freeBars_tableRow {cells : List String} (hne : cells ≠ []) :
    freeBars (tableRow cells) = cells.length + 1 + (cells.map freeBars).sum := by
  have hgap : IsCellGap " | " := by decide
  have hend : IsCellGap " |\n" := by decide
  have hcells := hgap.freeBars_intercalate hne
  obtain ⟨hfirst, hbetween, hlast⟩ : freeBars "| " = 1 ∧ freeBars " | " = 1 ∧ freeBars " |\n" = 1 := by decide
  rw [hbetween] at hcells
  rw [tableRow, String.append_assoc, freeBars_append (by decide), freeBars_append_of_head? hend.head, hfirst,
    hlast]
  omega

/-- A code span has the free bars of its text. -/
theorem freeBars_codeSpan (s : String) : freeBars (codeSpan s) = freeBars s := by
  have hquote : IsCellGap "\x60" := by decide
  have hbars : freeBars "\x60" = 0 := by decide
  rw [codeSpan, String.append_assoc, freeBars_append hquote.unescaped, freeBars_append_of_head? hquote.head, hbars,
    Nat.zero_add, Nat.add_zero]

/-- A displayed flag has the free bars of its name. -/
theorem freeBars_displayFlag (name : String) : freeBars (displayFlag name) = freeBars name := by
  rw [displayFlag]
  split
  · rw [freeBars_append (by decide), show freeBars "-" = 0 by decide, Nat.zero_add]
  · rw [freeBars_append (by decide), show freeBars "--" = 0 by decide, Nat.zero_add]

/-- The displayed flags of a parameter have the free bars of their names. -/
theorem Parameter.freeBars_flagDisplay (p : Parameter) :
    freeBars p.flagDisplay = (p.flagNames.map freeBars).sum := by
  have hgap : IsCellGap ", " := by decide
  have hne : p.flagNames.map displayFlag ≠ [] := by
    rw [Parameter.flagNames]
    split
    · simp
    · next hflags => simpa using hflags
  have hnames := hgap.freeBars_intercalate hne
  rw [List.map_map, show freeBars ", " = 0 by decide, Nat.mul_zero] at hnames
  simpa [Parameter.flagDisplay, Function.comp_def, freeBars_displayFlag] using hnames

/-- The name of a type has no bar. -/
theorem TypeTag.freeBars_spelling (tag : TypeTag) : freeBars tag.spelling = 0 := by
  cases tag with
  | scalar elem => cases elem <;> decide
  | slice elem => cases elem <;> decide
  | pointer elem => cases elem <;> decide

/-- A number has no bar. -/
theorem freeBars_toString (n : Nat) : freeBars (toString n) = 0 := by
  apply freeBars_eq_zero
  intro hbar
  exact absurd (Decimal.isDigit_of_mem_toString hbar) (by decide)

/-! ## Tables -/

/-- A table of parameters. -/
structure ParameterTable where
  /-- Whether a parameter stands in the table. -/
  holds : Parameter → Bool
  /-- The first line. -/
  head : String
  /-- The line below it. -/
  rule : String
  /-- The row of a parameter. -/
  row : Parameter → String
  /-- The texts of a parameter that its row shows. -/
  texts : Parameter → List String

namespace ParameterTable

/-- The table of flags. -/
def flags : ParameterTable where
  holds p := !p.positional
  head := "| Flag | Type | Default | Description |\n"
  rule := "|------|------|---------|-------------|\n"
  row := Parameter.markdownFlagRow
  texts p := p.flagNames ++ [p.defaultValue.getD "", p.description.getD ""]

/-- The table of arguments. -/
def arguments : ParameterTable where
  holds p := p.positional
  head := "| Argument | Position | Required | Description |\n"
  rule := "|----------|----------|----------|-------------|\n"
  row := Parameter.markdownArgumentRow
  texts p := [p.name, p.description.getD ""]

/-- Head, rule and rows of a table with some of these parameters. -/
def text (table : ParameterTable) (parameters : List Parameter) : String :=
  table.head ++ table.rule ++ String.join ((parameters.filter table.holds).map table.row)

/-- The bars of a row are those of the head and those of the texts in it. -/
theorem freeBars_row {table : ParameterTable} (htable : table = flags ∨ table = arguments) (p : Parameter) :
    freeBars (table.row p) = freeBars table.head + ((table.texts p).map freeBars).sum := by
  rcases htable with rfl | rfl
  · have hhead : freeBars flags.head = 5 := by decide
    change freeBars (tableRow _) = _
    rw [freeBars_tableRow (by simp), hhead]
    simp [flags, freeBars_codeSpan, Parameter.freeBars_flagDisplay, TypeTag.freeBars_spelling]
  · have hhead : freeBars arguments.head = 5 := by decide
    have hname : freeBars (if p.vararg then p.name ++ "..." else p.name) = freeBars p.name := by
      have hdots : IsCellGap "..." := by decide
      split
      · rw [freeBars_append_of_head? hdots.head, show freeBars "..." = 0 by decide, Nat.add_zero]
      · rfl
    have hposition : freeBars ((p.position.map fun n => toString n.toNat).getD "") = 0 := by
      cases p.position with
      | none => decide
      | some n => exact freeBars_toString n.toNat
    have hrequired : freeBars (if p.required then "yes" else "no") = 0 := by
      cases p.required <;> decide
    change freeBars (tableRow _) = _
    rw [freeBars_tableRow (by simp), hhead]
    simp only [arguments, List.map_cons, List.map_nil, List.sum_cons, List.sum_nil, freeBars_codeSpan, hname,
      hposition, hrequired, List.length_cons, List.length_nil]
    omega

/-- A row fits the head exactly if no text in it has a free bar. -/
theorem freeBars_row_eq_iff {table : ParameterTable} (htable : table = flags ∨ table = arguments) (p : Parameter) :
    freeBars (table.row p) = freeBars table.head ↔ ∀ text ∈ table.texts p, freeBars text = 0 := by
  rw [freeBars_row htable, Nat.add_eq_left, List.sum_eq_zero_iff_forall_eq_nat, List.forall_mem_map]

/-! ## Models -/

/-- A table with rows is part of the text of the parameters. -/
theorem text_isInfix {table : ParameterTable} (htable : table = flags ∨ table = arguments)
    {parameters : List Parameter} (hne : parameters.filter table.holds ≠ []) :
    (table.text parameters).toList <:+: (parametersMarkdown parameters).toList := by
  have hshown : ∀ rows : List String, rows ≠ [] →
      (table.head ++ table.rule ++ String.join rows).toList <:+:
        (markdownTable (table.head ++ table.rule) rows).toList := by
    intro rows hrows
    rw [markdownTable, if_neg (by simpa using hrows), String.toList_append (t := "\n")]
    exact (List.prefix_append _ _).isInfix
  have hpart := hshown ((parameters.filter table.holds).map table.row) (by simpa using hne)
  rw [parametersMarkdown, String.toList_append]
  rcases htable with rfl | rfl
  · exact hpart.trans (List.prefix_append _ _).isInfix
  · exact hpart.trans (List.suffix_append _ _).isInfix

/-- A text holds a table of some parameters, and a row of it fits the head exactly if no text that it shows has a
bar of its own. -/
structure IsTabled (table : ParameterTable) (text : String) (parameters : List Parameter) : Prop where
  /-- The table is there, with a row for each of its parameters in order, unless there is none. -/
  shown : parameters.filter table.holds ≠ [] → (table.text parameters).toList <:+: text.toList
  /-- A row has the bars of the head and those of the texts in it. -/
  bars : ∀ p ∈ parameters, table.holds p = true →
    freeBars (table.row p) = freeBars table.head + ((table.texts p).map freeBars).sum
  /-- A row fits the head exactly if no text in it has a bar of its own. -/
  fits : ∀ p ∈ parameters, table.holds p = true →
    (freeBars (table.row p) = freeBars table.head ↔ ∀ text ∈ table.texts p, freeBars text = 0)

/-- A text that holds the tables of some parameters shows each of the two, and a row has the bars of its texts and
of the head. -/
theorem isTabled_of_isInfix {table : ParameterTable} (htable : table = flags ∨ table = arguments)
    {parameters : List Parameter} {text : String}
    (h : (parametersMarkdown parameters).toList <:+: text.toList) : table.IsTabled text parameters where
  shown := fun hne => (text_isInfix htable hne).trans h
  bars := fun p _ _ => freeBars_row htable p
  fits := fun p _ _ => freeBars_row_eq_iff htable p

end ParameterTable

/-- A part of a joined text is inside it. -/
theorem toList_isInfix_join {parts : List String} {s : String} (h : s ∈ parts) :
    s.toList <:+: (String.join parts).toList := by
  rw [String.toList_join, List.flatMap_def]
  exact List.infix_of_mem_flatten (List.mem_map_of_mem h)

/-- The page of a node holds the table of its parameters. -/
theorem Node.parametersMarkdown_isInfix (n : Node) :
    (parametersMarkdown n.parameters).toList <:+: n.markdown.toList := by
  rw [Node.markdown, String.toList_append, String.toList_append]
  exact List.infix_append _ _ _

/-- The page of a command holds the table of its parameters. -/
theorem Command.parametersMarkdown_isInfix (c : Command) :
    (parametersMarkdown c.parameters).toList <:+: c.markdown.toList := by
  rw [Command.markdown, String.toList_append, String.toList_append]
  exact List.infix_append _ _ _

/-- The page of a command holds the part of each of its nodes. -/
theorem Command.node_markdown_isInfix {c : Command} {node : Node} (hnode : node ∈ c.nodes) :
    node.markdown.toList <:+: c.markdown.toList := by
  have hjoin := toList_isInfix_join (List.mem_map_of_mem (f := Node.markdown) hnode)
  rw [Command.markdown, String.toList_append]
  exact hjoin.trans (List.suffix_append _ _).isInfix

/-- The tables of the commands and nodes of a model: each is part of the text, and a row of it fits the head exactly
if no text that it shows has a bar of its own. -/
theorem Model.isTabled_markdown {model : Model} {command : Command} (hcommand : command ∈ model.commands)
    {table : ParameterTable} (htable : table = .flags ∨ table = .arguments) :
    table.IsTabled model.markdown command.parameters ∧
      ∀ node ∈ command.nodes, table.IsTabled model.markdown node.parameters := by
  have hpart : command.markdown.toList <:+: model.markdown.toList :=
    toList_isInfix_join (List.mem_map_of_mem hcommand)
  constructor
  · exact ParameterTable.isTabled_of_isInfix htable (command.parametersMarkdown_isInfix.trans hpart)
  · intro node hnode
    exact ParameterTable.isTabled_of_isInfix htable
      (node.parametersMarkdown_isInfix.trans ((Command.node_markdown_isInfix hnode).trans hpart))

/-- A unit with a command whose flag takes one of two values. -/
def formatUnit : SourceUnit where
  package := "example.com/app"
  file := "main.go"
  functions :=
    [{ name := "App"
       doc := "App is a subcommand \x60app\x60 that runs\nFlags:\n\n\tformat: --format json|yaml output"
       parameters := [{ name := "format", typeText := "string" }] }]

/-- Its model is built, but the row of the flag has one bar more than the head. -/
theorem Model.isTabled_markdown_format :
    ∃ outcome, build [formatUnit] {} = .ok outcome ∧ ∃ command ∈ outcome.model.commands,
      ∃ p ∈ command.parameters, p.description = some "json|yaml output" ∧
        freeBars p.markdownFlagRow = freeBars ParameterTable.flags.head + 1 := by
  have hok : (build [formatUnit] {}).map (fun outcome => decide (∃ command ∈ outcome.model.commands,
      ∃ p ∈ command.parameters, p.positional = false ∧ p.flagNames = ["format"] ∧ p.defaultValue = none ∧
        p.description = some "json|yaml output")) = .ok true := by
    decide +kernel
  obtain ⟨outcome, houtcome, hcommands⟩ := map_eq_ok_iff.mp hok
  obtain ⟨command, hcommand, p, hp, hflag, hnames, hdefault, hdescription⟩ := of_decide_eq_true hcommands
  have hrow := (Model.isTabled_markdown hcommand (Or.inl rfl)).1.bars p hp (by simp [ParameterTable.flags, hflag])
  refine ⟨outcome, houtcome, command, hcommand, p, hp, hdescription, hrow.trans ?_⟩
  have htexts : ParameterTable.flags.texts p = ["format", "", "json|yaml output"] := by
    simp [ParameterTable.flags, hnames, hdefault, hdescription]
  rw [htexts]
  decide

end CommandDoc
