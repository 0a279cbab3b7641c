import CommandDoc.Proofs.Build.WellFormed
import CommandDoc.Proofs.Model.Validity
import CommandDoc.View.Usage

/-!
# Usage screens

A usage screen of a built model shows every flag and every argument in one row.  Arguments stand in the order of
their positions, which the build keeps apart, and the right texts of a section stand below each other, although
the width of a column is measured in bytes and rows are filled up by characters.

What a word and a row look like is said by relations that do not mention the functions that write them; each
writer is then shown to meet its relation.

Main definitions:

- `UsageRow.IsWritten` and `UsageSection.IsWritten`: the text of a row, and of a section whose rows are aligned.
- `Parameter.IsArgumentToken`, `Parameter.IsArgumentRow`, `Parameter.IsFlagRow` and `Node.IsSubcommandRow`: what
  the word and the row of an argument, the row of a flag and that of a subcommand look like.
- `UsageLayout.Shows`: the words and rows of a screen belong to the parameters and children of a command or node.
- `Command.IsScreen`: a text shows everything that belongs on a screen.

Main results:

- Theorem `UsageSection.isWritten_render`: the rows of a section are aligned.
- Theorems `Parameter.isArgumentToken_argumentToken` and `Parameter.isFlagRow_flagRow`: words and rows look as they
  should.
- Theorem `Usage.increasing_arguments`: arguments stand in the order of their positions.
- Theorem `isScreen_of_build`: the screens of all commands and nodes of a built model.
-/

namespace CommandDoc

/-! ## Columns -/

namespace View

/-- A text takes a byte for each of its characters at least. -/
theorem length_le_utf8ByteSize (s : String) : s.length ≤ s.utf8ByteSize := by
  obtain ⟨cs, rfl⟩ : ∃ cs, s = String.ofList cs := ⟨s.toList, String.ofList_toList.symm⟩
  induction cs with
  | nil => simp
  | cons c cs ih =>
    have hc := c.utf8Size_pos
    rw [String.ofList_cons, String.length_append, String.utf8ByteSize_append, String.length_singleton,
      String.utf8ByteSize_singleton]
    omega

/-- A column is as wide as each of its texts. -/
theorem length_le_columnWidth {texts : List String} {s : String} (hs : s ∈ texts) :
    s.length ≤ columnWidth texts := by
  have hmax : ∀ (sizes : List Nat) (start : Nat),
      start ≤ sizes.foldl max start ∧ ∀ n ∈ sizes, n ≤ sizes.foldl max start := by
    intro sizes
    induction sizes with
    | nil => simp
    | cons size sizes ih =>
      intro start
      obtain ⟨hstart, hsizes⟩ := ih (max start size)
      rw [List.foldl_cons, List.forall_mem_cons]
      exact ⟨by omega, by omega, hsizes⟩
  have hsize := (hmax (texts.map String.utf8ByteSize) 0).2 _ (List.mem_map_of_mem hs)
  exact (length_le_utf8ByteSize s).trans hsize

end View

/-! ## Rows and sections -/

/-- Spaces in a row. -/
def spaces (n : Nat) : String :=
  String.ofList (List.replicate n ' ')

/-- There are as many spaces as asked for. -/
@[simp] theorem length_spaces (n : Nat) : (spaces n).length = n := by
  simp [spaces]

/-- Spaces behind spaces are spaces. -/
theorem spaces_append_spaces (m n : Nat) : spaces m ++ spaces n = spaces (m + n) := by
  rw [spaces, spaces, spaces, ← String.ofList_append, List.replicate_append_replicate]

/-- The text of a row: if anything stands on the right, it starts at a column, two spaces behind the left text at
least. -/
inductive UsageRow.IsWritten (column : Nat) : UsageRow → String → Prop where
  /-- Nothing stands on the right. -/
  | alone {left : String} : IsWritten column ⟨left, ""⟩ ("  " ++ left ++ "\n")
  /-- The right text starts behind so many characters. -/
  | beside {left right : String} {gap : Nat} (hright : right ≠ "") (hgap : 2 ≤ gap)
      (hcolumn : ("  " ++ left ++ spaces gap).length = column) :
      IsWritten column ⟨left, right⟩ ("  " ++ left ++ spaces gap ++ right ++ "\n")

/-- The text of a section: there are rows in it, and all that stands on the right starts at one column. -/
structure UsageSection.IsWritten (s : UsageSection) (text : String) : Prop where
  /-- There are rows. -/
  rows_ne_nil : s.rows ≠ []
  /-- Each row stands below the title, in order, and what is on the right of them starts at one column. -/
  aligned : ∃ (column : Nat) (lines : List String), List.Forall₂ (UsageRow.IsWritten column) s.rows lines ∧
    text = "\n" ++ s.title ++ "\n" ++ String.join lines

namespace UsageSection

/-- A row whose left text fits into the left column is written with its right text behind the column. -/
theorem isWritten_renderRow {width : Nat} {row : UsageRow} (h : row.left.length ≤ width) :
    row.IsWritten (2 + width + 2) (renderRow width row) := by
  obtain ⟨left, right⟩ := row
  rw [renderRow]
  split
  · next hright =>
    obtain rfl : right = "" := by simpa using hright
    exact .alone
  · next hright =>
    have htext : "  " ++ View.padTo width left ++ "  " ++ right ++ "\n"
        = "  " ++ left ++ spaces (width - left.length + 2) ++ right ++ "\n" := by
      rw [← spaces_append_spaces, View.padTo]
      simp [spaces, String.append_assoc]
    rw [htext]
    apply UsageRow.IsWritten.beside (by simpa using hright) (by omega)
    have hleft : left.length ≤ width := h
    have hindent : "  ".length = 2 := rfl
    simp only [String.length_append, length_spaces, hindent]
    omega

/-- The rows of a section are aligned. -/
theorem isWritten_render {s : UsageSection} (h : s.rows ≠ []) : s.IsWritten s.render where
  rows_ne_nil := h
  aligned := by
    refine ⟨2 + View.columnWidth (s.rows.map (·.left)) + 2,
      s.rows.map (renderRow (View.columnWidth (s.rows.map (·.left)))), ?_, ?_⟩
    · rw [List.forall₂_map_right_iff, List.forall₂_same]
      intro row hrow
      exact isWritten_renderRow (View.length_le_columnWidth (List.mem_map_of_mem hrow))
    · rw [render, if_neg (by simpa using h)]

/-- Sections without rows are left out. -/
theorem join_render (sections : List UsageSection) :
    String.join (sections.map render) = String.join ((sections.filter (·.rows ≠ [])).map render) := by
  induction sections with
  | nil => rfl
  | cons s sections ih =>
    rw [List.map_cons, String.join_cons, ih, List.filter_cons]
    by_cases hempty : s.rows = []
    · simp [hempty, render]
    · simp [hempty]

/-- Sections that have rows are written one behind the other. -/
theorem forall₂_isWritten_render {sections : List UsageSection} (h : ∀ s ∈ sections, s.rows ≠ []) :
    List.Forall₂ IsWritten sections (sections.map render) := by
  rw [List.forall₂_map_right_iff, List.forall₂_same]
  exact fun s hs => isWritten_render (h s hs)

end UsageSection

/-! ## Words and rows -/

/-- A name behind its dashes: one dash in front of a single character, two in front of a longer name. -/
inductive IsDashed (name : String) : String → Prop where
  /-- One dash. -/
  | short (h : name.length = 1) : IsDashed name ("-" ++ name)
  /-- Two dashes. -/
  | long (h : name.length ≠ 1) : IsDashed name ("--" ++ name)

/-- A name is written behind its dashes. -/
theorem isDashed_displayFlag (name : String) : IsDashed name (displayFlag name) := by
  rw [displayFlag]
  split
  · next h => exact .short (by simpa using h)
  · next h => exact .long (by simpa using h)

namespace Parameter

/-- An argument must be given: it is required, or repeated and wanted once at least. -/
def MustBeGiven (p : Parameter) : Prop :=
  p.required = true ∨ p.vararg = true ∧ p.varMin ≠ 0

/-- The word of an argument is its name, in angle brackets if it must be given and in square brackets if not, and
dots stand behind it exactly if it can be given again. -/
def IsArgumentToken (p : Parameter) (token : String) : Prop :=
  ∃ shown dots, token = shown ++ dots ∧
    (p.MustBeGiven ∧ shown = "<" ++ p.name ++ ">" ∨ ¬ p.MustBeGiven ∧ shown = "[" ++ p.name ++ "]") ∧
    (p.vararg = true ∧ dots = "..." ∨ p.vararg = false ∧ dots = "")

/-- The row of an argument: its word, and its description. -/
structure IsArgumentRow (p : Parameter) (row : UsageRow) : Prop where
  /-- Its word stands on the left. -/
  left : p.IsArgumentToken row.left
  /-- Its description stands on the right, if it has one. -/
  right : row.right = p.description.getD ""

/-- What is remarked on a flag: its default value and its environment variable, if it has them, and that it must be
given, if it must. -/
def remarks (p : Parameter) : List String :=
  (p.defaultValue.map ("default: " ++ ·)).toList ++ (p.envVar.map ("env: " ++ ·)).toList
    ++ (if p.required then ["required"] else [])

/-- The row of a flag. -/
structure IsFlagRow (p : Parameter) (row : UsageRow) : Prop where
  /-- On the left stand the names of the flag behind their dashes, or that of the parameter if the flag has none,
  with commas between them; behind them stands its type in angle brackets, unless that is a truth value. -/
  left : ∃ words : List String, List.Forall₂ IsDashed (if p.flags = [] then [p.name] else p.flags) words ∧
    ∃ type : String, row.left = ", ".intercalate words ++ type ∧
      (p.type = .scalar .bool ∧ type = "" ∨ p.type ≠ .scalar .bool ∧ type = " <" ++ p.type.spelling ++ ">")
  /-- On the right stands its description, if it has one, and behind it the remarks in parentheses, if there are
  any, with commas between them. -/
  right : row.right = " ".intercalate ((p.description.filter (· ≠ "")).toList
    ++ if p.remarks = [] then [] else ["(" ++ ", ".intercalate p.remarks ++ ")"])

/-- The word that is written for an argument is its word. -/
theorem isArgumentToken_argumentToken (p : Parameter) : p.IsArgumentToken p.argumentToken := by
  have hgiven : (p.required || (p.vararg && 0 < p.varMin)) = true ↔ p.MustBeGiven := by
    simp [MustBeGiven, UInt32.pos_iff_ne_zero]
  have hshown : p.MustBeGiven ∧ (if p.required || (p.vararg && 0 < p.varMin) then "<" ++ p.name ++ ">"
        else "[" ++ p.name ++ "]") = "<" ++ p.name ++ ">" ∨
      ¬ p.MustBeGiven ∧ (if p.required || (p.vararg && 0 < p.varMin) then "<" ++ p.name ++ ">"
        else "[" ++ p.name ++ "]") = "[" ++ p.name ++ "]" := by
    by_cases h : p.MustBeGiven
    · exact Or.inl ⟨h, if_pos (hgiven.mpr h)⟩
    · exact Or.inr ⟨h, if_neg fun hcode => h (hgiven.mp hcode)⟩
  rw [argumentToken]
  cases hvararg : p.vararg with
  | true => exact ⟨_, "...", rfl, by simpa [hvararg] using hshown, Or.inl ⟨hvararg, rfl⟩⟩
  | false => exact ⟨_, "", (String.append_empty).symm, by simpa [hvararg] using hshown, Or.inr ⟨hvararg, rfl⟩⟩

/-- The row that is written for an argument is its row. -/
theorem isArgumentRow_argumentRow (p : Parameter) : p.IsArgumentRow p.argumentRow where
  left := p.isArgumentToken_argumentToken
  right := rfl

/-- The text on the right of a flag is its description and its remarks, as far as there are any. -/
theorem flagRight_eq (p : Parameter) :
    p.flagRight = " ".intercalate ((p.description.filter (· ≠ "")).toList
      ++ if p.remarks = [] then [] else ["(" ++ ", ".intercalate p.remarks ++ ")"]) := by
  have hnotes : p.notes = p.remarks := rfl
  -- An empty description is shown as none is.
  obtain ⟨hshown, hgiven⟩ | ⟨text, htext, hshown, hgiven⟩ :
      p.description.getD "" = "" ∧ p.description.filter (· ≠ "") = none ∨
        ∃ text, text ≠ "" ∧ p.description.getD "" = text ∧ p.description.filter (· ≠ "") = some text := by
    cases p.description with
    | none => exact Or.inl ⟨rfl, rfl⟩
    | some text =>
      by_cases htext : text = ""
      · exact Or.inl ⟨htext, by simp [htext]⟩
      · exact Or.inr ⟨text, htext, rfl, by simp [htext]⟩
  · rw [flagRight, hnotes, hshown, hgiven]
    by_cases hremarks : p.remarks = [] <;> simp [hremarks]
  · rw [flagRight, hnotes, hshown, hgiven]
    by_cases hremarks : p.remarks = []
    · simp [hremarks]
    · simp only [hremarks, htext, List.isEmpty_iff, beq_iff_eq, if_false, Option.toList_some, List.singleton_append,
        String.intercalate_cons_cons, String.intercalate_singleton, String.append_assoc]

/-- The row that is written for a flag is its row. -/
theorem isFlagRow_flagRow (p : Parameter) : p.IsFlagRow p.flagRow where
  left := by
    have hnames : p.flagNames = if p.flags = [] then [p.name] else p.flags := by simp [flagNames]
    refine ⟨p.flagNames.map displayFlag, ?_, ?_⟩
    · rw [hnames, List.forall₂_map_right_iff, List.forall₂_same]
      exact fun name _ => isDashed_displayFlag name
    · by_cases hbool : p.type = .scalar .bool
      · exact ⟨"", by simp [flagRow, flagLeft, flagDisplay, TypeTag.isBool, hbool], Or.inl ⟨hbool, rfl⟩⟩
      · refine ⟨" <" ++ p.type.spelling ++ ">", ?_, Or.inr ⟨hbool, rfl⟩⟩
        simp [flagRow, flagLeft, flagDisplay, TypeTag.isBool, hbool, String.append_assoc]
  right := p.flagRight_eq

end Parameter

/-- The row of a subcommand: its name, with its other names in parentheses, and its description. -/
structure Node.IsSubcommandRow (node : Node) (row : UsageRow) : Prop where
  /-- Its name stands on the left, and behind it its other names if it has any. -/
  left : node.aliases = [] ∧ row.left = node.name ∨
    node.aliases ≠ [] ∧ row.left = node.name ++ " (" ++ ", ".intercalate node.aliases ++ ")"
  /-- Its description stands on the right, if it has one. -/
  right : row.right = node.description.getD ""

/-- The row that is written for a subcommand is its row. -/
theorem Node.isSubcommandRow_usageRow (node : Node) : node.IsSubcommandRow node.usageRow where
  left := by
    rw [usageRow]
    by_cases haliases : node.aliases = []
    · exact Or.inl ⟨haliases, if_pos (by simpa using haliases)⟩
    · exact Or.inr ⟨haliases, if_neg (by simpa using haliases)⟩
  right := rfl

/-! ## Screens -/

/-- What a screen shows: words and rows. -/
structure UsageLayout where
  /-- The words of the arguments. -/
  argumentTokens : List String
  /-- The sections of flags. -/
  flagSections : List UsageSection
  /-- The rows of the arguments. -/
  argumentRows : List UsageRow
  /-- The rows of the subcommands. -/
  subcommandRows : List UsageRow

/-- A section of flags has the title given, and one row for each flag among the parameters, in their order. -/
structure UsageSection.ShowsFlags (titled : String × List Parameter) (s : UsageSection) : Prop where
  /-- The title. -/
  title : s.title = titled.1
  /-- The rows. -/
  rows : List.Forall₂ Parameter.IsFlagRow (titled.2.filter fun p => p.positional = false) s.rows

namespace UsageLayout

variable (layout : UsageLayout)

/-- The words to type. -/
def words (label : String) : List String :=
  ["Usage:", label] ++ (if layout.flagSections = [] then [] else ["[flags]"]) ++ layout.argumentTokens
    ++ (if layout.subcommandRows = [] then [] else ["<command>"])

/-- The sections, first those of flags. There are none without rows. -/
def sections : List UsageSection :=
  layout.flagSections
    ++ (if layout.argumentRows = [] then [] else [⟨"Arguments:", layout.argumentRows⟩])
    ++ (if layout.subcommandRows = [] then [] else [⟨"Subcommands:", layout.subcommandRows⟩])

/-- The parameters of a command or node, and those handed down to it, with the titles of their sections. -/
def titled (parameters : List Parameter) (inherited : List InheritedGroup) : List (String × List Parameter) :=
  ("Flags:", parameters) :: inherited.map fun group => ("Flags for " ++ group.declaredBy ++ ":", group.parameters)

/-- A layout shows the parameters of a command or node, what is handed down to it, and its children. -/
structure Shows (command : Command) (parameters : List Parameter) (inherited : List InheritedGroup)
    (children : List Nat) : Prop where
  /-- Each argument has one word and one row, both in the order of their positions, no two of them at one. -/
  arguments : ∃ arguments : List Parameter, arguments.Perm (parameters.filter fun p => p.positional = true) ∧
    (arguments.Pairwise fun p q => ∃ m ∈ p.position, ∃ n ∈ q.position, m < n) ∧
    List.Forall₂ Parameter.IsArgumentToken arguments layout.argumentTokens ∧
    List.Forall₂ Parameter.IsArgumentRow arguments layout.argumentRows
  /-- There is a section for its own flags and one for each group, in order, with one row for each flag; only a
  section that would have no flag is left out. -/
  flagSections : List.Forall₂ UsageSection.ShowsFlags
    ((titled parameters inherited).filter fun group => ∃ p ∈ group.2, p.positional = false) layout.flagSections
  /-- Each child has one row, in order. -/
  subcommands : ∃ nodes : List Node, List.Forall₂ (fun id node => command.node? id = some node) children nodes ∧
    List.Forall₂ Node.IsSubcommandRow nodes layout.subcommandRows

end UsageLayout

/-- A text shows everything that belongs on the screen of a command or node: the words to type, its description
and help text, each behind a blank line, and a written section for everything of which there is any. -/
def Command.IsScreen (command : Command) (label : String) (description extendedHelp : Option String)
    (parameters : List Parameter) (inherited : List InheritedGroup) (children : List Nat) (text : String) :
    Prop :=
  ∃ layout : UsageLayout, layout.Shows command parameters inherited children ∧
    ∃ written : List String, List.Forall₂ UsageSection.IsWritten layout.sections written ∧
      text = " ".intercalate (layout.words label) ++ "\n"
        ++ String.join ((description.toList ++ extendedHelp.toList).map fun paragraph => "\n" ++ paragraph ++ "\n")
        ++ String.join written

namespace Usage

/-! ### Arguments -/

/-- Sorting the arguments loses none and adds none. -/
theorem perm_arguments (u : Usage) : u.arguments.Perm (u.parameters.filter (·.positional)) :=
  List.mergeSort_perm _ _

/-- Sorting the arguments puts lower ranks first. -/
theorem sorted_arguments (u : Usage) :
    u.arguments.Pairwise fun p q => p.argumentRank ≤ q.argumentRank := by
  have hpairs : u.arguments.Pairwise fun p q => decide (p.argumentRank ≤ q.argumentRank) = true := by
    apply List.pairwise_mergeSort
    · simp only [decide_eq_true_eq]
      exact fun _ _ _ => le_trans
    · simp only [Bool.or_eq_true, decide_eq_true_eq]
      exact fun _ _ => le_total _ _
  exact hpairs.imp of_decide_eq_true

/-- Arguments stand in the order of their positions. -/
theorem increasing_arguments {u : Usage} {function : Option Binding} (h : IsScope function u.parameters) :
    u.arguments.Pairwise fun p q => ∃ m ∈ p.position, ∃ n ∈ q.position, m < n := by
  have hdistinct : (u.arguments.filterMap (·.position)).Nodup := by
    rw [(u.perm_arguments.filterMap _).nodup_iff]
    exact h.positions.sublist ((List.filter_sublist).filterMap _)
  rw [List.Nodup, List.pairwise_filterMap] at hdistinct
  refine (u.sorted_arguments.and hdistinct).imp_of_mem ?_
  rintro p q hp hq ⟨hle, hne⟩
  have hposition : ∀ r ∈ u.arguments, ∃ n, r.position = some n := by
    intro r hr
    obtain ⟨hmem, hpositional⟩ := List.mem_filter.mp (u.perm_arguments.mem_iff.mp hr)
    exact Option.isSome_iff_exists.mp ((h.wellFormed r hmem).positional_iff.mp hpositional)
  obtain ⟨m, hm⟩ := hposition p hp
  obtain ⟨n, hn⟩ := hposition q hq
  refine ⟨m, hm, n, hn, ?_⟩
  have hneq := hne m hm n hn
  simp only [Parameter.argumentRank, hm, hn, Option.map_some, Option.getD_some] at hle
  rw [UInt32.lt_iff_toNat_lt]
  have hnat : m.toNat ≠ n.toNat := fun heq => hneq (UInt32.toNat_inj.mp heq)
  omega

/-- Two arguments that are declared the other way round change places. -/
theorem arguments_of_swapped {u : Usage} {p q : Parameter} (h : u.parameters.filter (·.positional) = [q, p])
    (hrank : p.argumentRank < q.argumentRank) : u.arguments = [p, q] := by
  rw [arguments, h]
  simp [List.mergeSort, Nat.not_le.mpr hrank]

/-! ### Sections -/

/-- The section of some flags. -/
def flagSection (titled : String × List Parameter) : UsageSection :=
  ⟨titled.1, (titled.2.filter Parameter.isFlag).map Parameter.flagRow⟩

/-- The layout of a screen with its arguments in some order. -/
def layout (u : Usage) (arguments : List Parameter) : UsageLayout where
  argumentTokens := arguments.map Parameter.argumentToken
  flagSections :=
    ((UsageLayout.titled u.parameters u.inherited).filter fun group => ∃ p ∈ group.2, p.positional = false).map
      flagSection
  argumentRows := arguments.map Parameter.argumentRow
  subcommandRows := u.subcommands.map Node.usageRow

/-- The text of a screen in a layout: its words, the description and the help text, each behind a blank line, and
its sections. -/
def textOf (u : Usage) (layout : UsageLayout) : String :=
  " ".intercalate (layout.words u.label) ++ "\n"
    ++ String.join ((u.description.toList ++ u.extendedHelp.toList).map fun paragraph => "\n" ++ paragraph ++ "\n")
    ++ String.join (layout.sections.map UsageSection.render)

/-- The section of some flags has a row for each of them. -/
theorem showsFlags_flagSection (titled : String × List Parameter) : (flagSection titled).ShowsFlags titled where
  title := rfl
  rows := by
    have hflag : (titled.2.filter fun p => p.positional = false) = titled.2.filter Parameter.isFlag :=
      List.filter_congr fun p _ => by simp [Parameter.isFlag]
    rw [hflag, flagSection, List.forall₂_map_right_iff, List.forall₂_same]
    exact fun p _ => p.isFlagRow_flagRow

/-- A section of flags has rows if there is a flag. -/
theorem rows_flagSection_ne_nil_iff {titled : String × List Parameter} :
    (flagSection titled).rows ≠ [] ↔ ∃ p ∈ titled.2, p.positional = false := by
  simp [flagSection, Parameter.isFlag, List.filter_eq_nil_iff]

/-- The sections of the screen, of flags first, made from the parameters with their titles. -/
theorem sections_eq (u : Usage) :
    u.sections = (UsageLayout.titled u.parameters u.inherited).map flagSection
      ++ [⟨"Arguments:", u.arguments.map Parameter.argumentRow⟩]
      ++ [⟨"Subcommands:", u.subcommands.map Node.usageRow⟩] := by
  have hgroups : u.inherited.map groupSection
      = (u.inherited.map fun group => ("Flags for " ++ group.declaredBy ++ ":", group.parameters)).map
          flagSection := by
    rw [List.map_map]
    rfl
  have hlast : [(⟨"Arguments:", u.arguments.map Parameter.argumentRow⟩ : UsageSection),
        ⟨"Subcommands:", u.subcommands.map Node.usageRow⟩]
      = [⟨"Arguments:", u.arguments.map Parameter.argumentRow⟩]
        ++ [⟨"Subcommands:", u.subcommands.map Node.usageRow⟩] := rfl
  rw [sections, hgroups, hlast, ← List.append_assoc]
  rfl

/-- Of one section only an empty one is left out. -/
theorem filter_singleton (title : String) (rows : List UsageRow) :
    [(⟨title, rows⟩ : UsageSection)].filter (·.rows ≠ []) = if rows = [] then [] else [⟨title, rows⟩] := by
  by_cases hempty : rows = []
  · simp [hempty]
  · simp [hempty]

/-- The sections of flags with rows are those with a flag. -/
theorem filter_map_flagSection (groups : List (String × List Parameter)) :
    (groups.map flagSection).filter (·.rows ≠ [])
      = (groups.filter fun group => ∃ p ∈ group.2, p.positional = false).map flagSection := by
  rw [List.filter_map]
  refine congrArg _ (List.filter_congr fun group _ => ?_)
  exact decide_eq_decide.mpr rows_flagSection_ne_nil_iff

/-- The sections with rows are those of the layout. -/
theorem filter_sections (u : Usage) : u.sections.filter (·.rows ≠ []) = (u.layout u.arguments).sections := by
  rw [sections_eq, List.filter_append, List.filter_append, filter_map_flagSection, filter_singleton,
    filter_singleton]
  rfl

/-- No section of the layout is empty. -/
theorem rows_ne_nil_of_mem_sections {u : Usage} : ∀ s ∈ (u.layout u.arguments).sections, s.rows ≠ [] := by
  intro s hs
  rw [← filter_sections, List.mem_filter] at hs
  exact of_decide_eq_true hs.2

/-! ### Whole screens -/

/-- There is a flag exactly if there is a section of flags. -/
theorem hasFlags_eq_false_iff {u : Usage} : u.hasFlags = false ↔ (u.layout u.arguments).flagSections = [] := by
  simp [hasFlags, ownFlags, layout, UsageLayout.titled, List.filter_eq_nil_iff, Parameter.isFlag]

/-- The first line of the screen holds the words of the layout. -/
theorem headline_eq (u : Usage) : u.headline = " ".intercalate ((u.layout u.arguments).words u.label) := by
  have hflags : (if u.hasFlags then ["[flags]"] else [])
      = if (u.layout u.arguments).flagSections = [] then [] else ["[flags]"] := by
    by_cases hflags : (u.layout u.arguments).flagSections = []
    · simp [hflags, hasFlags_eq_false_iff.mpr hflags]
    · have hany : u.hasFlags = true := by
        rw [← Bool.not_eq_false, hasFlags_eq_false_iff]
        exact hflags
      simp [hflags, hany]
  have hcommand : (if u.subcommands.isEmpty then [] else ["<command>"])
      = if (u.layout u.arguments).subcommandRows = [] then [] else ["<command>"] := by
    simp [layout]
  rw [headline, hflags, hcommand]
  rfl

/-- The description and the help text stand behind blank lines. -/
theorem paragraph_append_paragraph (description extendedHelp : Option String) :
    paragraph description ++ paragraph extendedHelp
      = String.join ((description.toList ++ extendedHelp.toList).map fun text => "\n" ++ text ++ "\n") := by
  cases description <;> cases extendedHelp <;> simp [paragraph, String.join]

/-- The screen is the text of its layout. -/
theorem render_eq (u : Usage) : u.render = u.textOf (u.layout u.arguments) := by
  rw [render, headline_eq, UsageSection.join_render, filter_sections, textOf, ← paragraph_append_paragraph]
  simp only [String.append_assoc]

/-- The layout of a screen shows everything, if its parameters fit together and its subcommands are children. -/
theorem shows_layout {u : Usage} {command : Command} {function : Option Binding} {children : List Nat}
    (hscope : IsScope function u.parameters)
    (hchildren : List.Forall₂ (fun id node => command.node? id = some node) children u.subcommands) :
    (u.layout u.arguments).Shows command u.parameters u.inherited children where
  arguments := by
    refine ⟨u.arguments, ?_, increasing_arguments hscope, ?_, ?_⟩
    · simpa using u.perm_arguments
    · rw [layout, List.forall₂_map_right_iff, List.forall₂_same]
      exact fun p _ => p.isArgumentToken_argumentToken
    · rw [layout, List.forall₂_map_right_iff, List.forall₂_same]
      exact fun p _ => p.isArgumentRow_argumentRow
  flagSections := by
    rw [layout, List.forall₂_map_right_iff, List.forall₂_same]
    exact fun group _ => showsFlags_flagSection group
  subcommands := by
    refine ⟨u.subcommands, hchildren, ?_⟩
    rw [layout, List.forall₂_map_right_iff, List.forall₂_same]
    exact fun node _ => node.isSubcommandRow_usageRow

/-- A screen whose parameters fit together, and whose subcommands are children, shows everything. -/
theorem isScreen_render {u : Usage} {command : Command} {function : Option Binding} {children : List Nat}
    (hscope : IsScope function u.parameters)
    (hchildren : List.Forall₂ (fun id node => command.node? id = some node) children u.subcommands) :
    command.IsScreen u.label u.description u.extendedHelp u.parameters u.inherited children u.render := by
  refine ⟨u.layout u.arguments, shows_layout hscope hchildren,
    (u.layout u.arguments).sections.map UsageSection.render,
    UsageSection.forall₂_isWritten_render rows_ne_nil_of_mem_sections, ?_⟩
  rw [render_eq, textOf]

end Usage

/-! ## Built models -/

/-- Numbers within the list of nodes stand for one node each. -/
theorem Command.forall₂_nodesAt {command : Command} {ids : List Nat}
    (h : ∀ id ∈ ids, id < command.nodes.length) :
    List.Forall₂ (fun id node => command.node? id = some node) ids (command.nodesAt ids) := by
  induction ids with
  | nil => exact .nil
  | cons id ids ih =>
    have hlt := h id List.mem_cons_self
    have hnode : command.node? id = some command.nodes[id] := List.getElem?_eq_getElem hlt
    rw [nodesAt, List.filterMap_cons, hnode]
    exact .cons hnode (ih fun other hother => h other (List.mem_cons_of_mem _ hother))

/-- The numbers of children point to nodes. -/
theorem isDangling_of_build {units : List SourceUnit} {settings : Settings} {outcome : Outcome}
    (h : build units settings = .ok outcome) {command : Command} (hcommand : command ∈ outcome.model.commands) :
    command.isDangling = false :=
  (Command.faults_eq_nil_iff.mp (faults_of_build h hcommand)).2.1

/-- The screens of a command of a built model and of its nodes show everything that belongs on them. -/
theorem isScreen_of_build {units : List SourceUnit} {settings : Settings} {outcome : Outcome}
    (h : build units settings = .ok outcome) {command : Command} (hcommand : command ∈ outcome.model.commands) :
    command.IsScreen command.name command.description command.extendedHelp command.parameters []
        command.children (Usage.ofCommand command).render ∧
      ∀ node ∈ command.nodes,
        command.IsScreen node.label node.description node.extendedHelp node.parameters node.inherited
          node.children (Usage.ofNode command node).render := by
  obtain ⟨hscope, hscopes⟩ := isScope_of_build h hcommand
  obtain ⟨hroot, hnodes, -⟩ := Command.isDangling_eq_false_iff.mp (isDangling_of_build h hcommand)
  constructor
  · exact Usage.isScreen_render (u := Usage.ofCommand command) hscope (Command.forall₂_nodesAt hroot)
  · intro node hnode
    exact Usage.isScreen_render (u := Usage.ofNode command node) (hscopes node hnode)
      (Command.forall₂_nodesAt (hnodes node hnode))

/-- A unit with a command that hands two flags down to its subcommand, one of them with letters outside ASCII,
and whose arguments are not declared in the order of their positions. -/
def measureUnit : SourceUnit where
  package := "example.com/measure"
  file := "main.go"
  functions :=
    [{ name := "Measure"
       doc := "Measure is a subcommand \x60measure\x60 that measures\nFlags:\n\n"
         ++ "\tquiet: (global) no output\n\tto: @2 to\n\tfrom: (required) @1 from"
       parameters := [{ name := "größe", typeText := "int", inlineComment := some "(global) in mm" },
         { name := "quiet", typeText := "bool" }, { name := "to", typeText := "string" },
         { name := "from", typeText := "string" }] },
      { name := "Twice"
        doc := "Twice is a subcommand \x60measure twice\x60 that measures again\nFlags:\n\n"
          ++ "\tn: (default: 2) how often"
        parameters := [{ name := "n", typeText := "int" }] }]

/-- The screen of the command of the unit. -/
def measureScreen : String :=
  "Usage: measure [flags] <from> [to] <command>\n\nmeasures\n\n"
    ++ "Flags:\n  --größe <int>    in mm\n  --quiet          no output\n\n"
    ++ "Arguments:\n  <from>  from\n  [to]    to\n\nSubcommands:\n  twice  measures again\n"

/-- The screen of its subcommand. -/
def twiceScreen : String :=
  "Usage: measure twice [flags]\n\nmeasures again\n\nFlags:\n  -n <int>  how often (default: 2)\n\n"
    ++ "Flags for measure:\n  --größe <int>    in mm\n  --quiet          no output\n"

/-- The command declares its second argument first, and only its first one must be given; in the screens of the
command and of its node the texts stand below each other, although the name of one flag takes two bytes more than
it has characters. -/
theorem isScreen_of_build_measure :
    ∃ outcome, build [measureUnit] {} = .ok outcome ∧ ∃ command ∈ outcome.model.commands,
      command.parameters.filterMap (·.position) = [2, 1] ∧
      command.IsScreen command.name command.description command.extendedHelp command.parameters []
        command.children measureScreen ∧
      ∃ node ∈ command.nodes,
        command.IsScreen node.label node.description node.extendedHelp node.parameters node.inherited
          node.children twiceScreen := by
  have hok : (build [measureUnit] {}).map (fun outcome => decide (∃ command ∈ outcome.model.commands,
      command.parameters.filterMap (·.position) = [2, 1] ∧
        (command.parameters.filter (·.positional)).map Parameter.argumentRank = [2, 1] ∧
        (Usage.ofCommand command).textOf
          ((Usage.ofCommand command).layout (command.parameters.filter (·.positional)).reverse) = measureScreen ∧
        ∃ node ∈ command.nodes, (Usage.ofNode command node).render = twiceScreen)) = .ok true := by
    decide +kernel
  obtain ⟨outcome, houtcome, hscreens⟩ := map_eq_ok_iff.mp hok
  obtain ⟨command, hcommand, hpositions, hranks, htext, node, hnode, hnodeText⟩ := of_decide_eq_true hscreens
  obtain ⟨hroot, hnodes⟩ := isScreen_of_build houtcome hcommand
  refine ⟨outcome, houtcome, command, hcommand, hpositions, ?_, node, hnode, ?_⟩
  · -- The two arguments change places, so the screen is the text that was computed.
    obtain ⟨q, rest, hq, hqrank, hrest⟩ := List.map_eq_cons_iff.mp hranks
    obtain ⟨p, rfl, hprank⟩ := List.map_eq_singleton_iff.mp hrest
    have hswapped : (Usage.ofCommand command).arguments = [p, q] :=
      Usage.arguments_of_swapped hq (by omega)
    have hreverse : [q, p].reverse = (Usage.ofCommand command).arguments := hswapped.symm
    rw [Usage.render_eq, ← hreverse, ← hq] at hroot
    rw [← htext]
    exact hroot
  · rw [← hnodeText]
    exact hnodes node hnode

end CommandDoc
