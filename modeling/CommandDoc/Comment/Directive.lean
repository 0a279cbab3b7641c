import CommandDoc.Comment.Lines
import CommandDoc.Param.Description
import CommandDoc.Warning

/-!
# What a doc comment declares

A doc comment declares a subcommand in one line and documents its parameters in others: in a block of
indented entries under `Flags:`, in lines that start with `flag` or `param`, or in entries with a marker of
an argument. A further line names aliases. All other lines are help text.

Main definitions:

- `LineForm` and `readLine`: what one line is, depending on the part of the comment it stands in.
- `Scan`: a comment that is read in part. A step reads a line, or ends a flags block in front of one.
- `Directive` and `Directive.ofLines`: what the lines say together.
- `styleWarnings`: what is wrong with the layout of a comment.
- `readComment` reads a comment.
-/

namespace CommandDoc

open Text

/-! ## Forms of lines -/

/-- What a line of a comment is. -/
inductive LineForm where
  /-- A blank line, which separates help paragraphs. -/
  | blank
  /-- A line that means nothing, such as a blank line of a flags block. -/
  | gap
  /-- The declaration of a subcommand: the words in backquotes and the description. -/
  | declaration (words : List String) (description : Option String)
  /-- The head of a flags block. -/
  | flagsHead
  /-- A parameter and the text about it. -/
  | entry (name : String) (details : List Char)
  /-- Aliases. -/
  | aliases (names : List String)
  /-- Help text. -/
  | help (text : List Char)
  deriving Repr, DecidableEq

/-- The part of a comment that a line stands in. -/
inductive Section where
  /-- Before the declaration. -/
  | opening
  /-- Behind the declaration, or behind a flags block. -/
  | body
  /-- In a flags block. -/
  | flags
  deriving Repr, DecidableEq

/-- A line of a comment. -/
structure CommentLine where
  /-- The text, with its indentation. -/
  text : List Char
  /-- Whether it is an indented line of a flags block. -/
  inFlags : Bool
  /-- What it is. -/
  form : LineForm
  deriving Repr, DecidableEq

namespace LineForm

/-! ## Single forms -/

/-- The first character of an identifier. -/
def isIdentifierStart (c : Char) : Bool :=
  c.isAlpha || c == '_'

/-- The other characters of an identifier. -/
def isIdentifierChar (c : Char) : Bool :=
  c.isAlphanum || c == '_'

/-- The ASCII identifier at the start of a text, and the text behind it. -/
def identifier? : List Char → Option (List Char × List Char)
  | c :: cs =>
    if isIdentifierStart c then some (c :: cs.takeWhile isIdentifierChar, cs.dropWhile isIdentifierChar)
    else none
  | [] => none

/-- An identifier and the text about it, behind a colon or a blank, or nothing at all. -/
def paramLine? (cs : List Char) : Option LineForm := do
  let (name, rest) ← identifier? cs
  match rest with
  | [] => some (entry (String.ofList name) [])
  | c :: details =>
    if c == ':' || isBlank c then some (entry (String.ofList name) (trimStart details)) else none

/-- A line that gives an entry if it can be one, else help text. -/
def entryOrHelp (cs trimmed : List Char) : LineForm :=
  (paramLine? cs).getD (help trimmed)

/-- Whether a line outside flags blocks is an entry: an identifier, a colon, a blank, and a text with a marker
of an argument. -/
def hasArgument (cs : List Char) : Bool :=
  match identifier? cs with
  | some (_, ':' :: c :: details) => isBlank c && Marker.hasArgumentMarker (trimStart details)
  | _ => false

/-- An entry outside flags blocks. It is read as every entry is, and a line that could not be read as one would
mean nothing. -/
def argumentLine? (cs : List Char) : Option LineForm :=
  if hasArgument cs then some ((paramLine? cs).getD gap) else none

/-- A line of aliases, between commas, semicolons and blanks. -/
def aliases? (cs : List Char) : Option LineForm := do
  let rest ← (afterExactly? "Aliases:".toList cs).or (afterExactly? "aliases:".toList cs)
  some (aliases ((nonemptyFields (fun c => c == ',' || c == ';' || isBlank c) rest).map String.ofList))

/-- The text behind the first occurrence of a word. -/
def behindFirst? (word : List Char) : List Char → Option (List Char)
  | [] => afterExactly? word []
  | c :: cs =>
    match afterExactly? word (c :: cs) with
    | some rest => some rest
    | none => behindFirst? word cs

/-- The inside of backquotes at the start of a text, and the text behind them. -/
def backquoted? : List Char → Option (List Char × List Char)
  | '\x60' :: cs =>
    match cs.dropWhile (· != '\x60') with
    | _ :: rest => some (cs.takeWhile (· != '\x60'), rest)
    | [] => none
  | _ => none

/-- The description behind the declared words: without `that` or two dashes in front. -/
def shortDescription? (cs : List Char) : Option String :=
  let trimmed := trim cs
  let text :=
    trim (((afterExactly? "that ".toList trimmed).or (afterExactly? "-- ".toList trimmed)).getD trimmed)
  if text.isEmpty then none else some (String.ofList text)

/-- The declaration of a subcommand. -/
def declaration? (cs : List Char) : Option LineForm := do
  let rest := trimStart (← behindFirst? "is a subcommand".toList cs)
  match backquoted? rest with
  | some (inside, behind) =>
    some (declaration ((words inside).map String.ofList) (shortDescription? behind))
  | none => some (declaration [] (shortDescription? rest))

/-! ## The form of a line -/

/-- The form of a trimmed line outside flags blocks that declares nothing. -/
def ofBody (trimmed : List Char) : LineForm :=
  if trimmed == "Flags:".toList then flagsHead
  else
    match (afterExactly? "flag ".toList trimmed).or (afterExactly? "param ".toList trimmed) with
    | some rest => entryOrHelp (trim rest) trimmed
    | none =>
      match (aliases? trimmed).or (argumentLine? trimmed) with
      | some form => form
      | none => if trimmed.isEmpty then blank else help trimmed

/-- The form of a line in a part of a comment. -/
def ofLine (part : Section) (text : List Char) : LineForm :=
  match part with
  | .opening => (declaration? (trim text)).getD (ofBody (trim text))
  | _ => ofBody (trim text)

end LineForm

namespace Section

/-- The part of a comment behind a line. -/
def after (part : Section) : LineForm → Section
  | .declaration .. => .body
  | .flagsHead => .flags
  | _ => part

end Section

/-! ## Reading lines -/

/-- Whether a line starts with a space or a tab. -/
def isIndented (text : List Char) : Bool :=
  text.head? == some ' ' || text.head? == some '\t'

/-- Read one line. A flags block ends before the first line that is neither blank nor indented. -/
def readLine (part : Section) (text : List Char) : CommentLine × Section :=
  match part with
  | .flags =>
    if (trim text).isEmpty then (⟨text, false, .gap⟩, .flags)
    else if isIndented text then (⟨text, true, .entryOrHelp (trim text) (trim text)⟩, .flags)
    else (⟨text, false, .ofLine .body text⟩, Section.body.after (.ofLine .body text))
  | _ => (⟨text, false, .ofLine part text⟩, part.after (.ofLine part text))

/-- A comment that is read in part. -/
structure Scan where
  /-- The part of the comment that the next line stands in. -/
  part : Section
  /-- The lines that are left. -/
  left : List (List Char)
  /-- The lines that are read, in order. -/
  read : List CommentLine := []

namespace Scan

/-- Read a line of its own form. -/
def take (scan : Scan) (text : List Char) (texts : List (List Char)) : Scan where
  part := (readLine scan.part text).2
  left := texts
  read := scan.read ++ [(readLine scan.part text).1]

/-- Whether a line ends the part of a comment it would stand in. -/
def endsFlags (scan : Scan) (text : List Char) : Bool :=
  scan.part == .flags && !(trim text).isEmpty && !isIndented text

/-- One step: a line that ends a flags block is left for the next step, which reads it in the body. -/
def step? (scan : Scan) : Option Scan :=
  match scan.left with
  | [] => none
  | text :: texts => some (if scan.endsFlags text then { scan with part := .body } else scan.take text texts)

/-- So many steps, or as many as there are. -/
def run : Nat → Scan → Scan
  | 0, scan => scan
  | n + 1, scan => (scan.step?.map (run n)).getD scan

/-- How many steps are left at most: a line is read in one step, and the block in front of it can end in
another. -/
def bound (scan : Scan) : Nat :=
  2 * scan.left.length + if scan.part = .flags then 1 else 0

end Scan

/-! ## Directives -/

/-- What a doc comment declares. -/
structure Directive where
  /-- Whether it declares a subcommand. -/
  isCommand : Bool := false
  /-- The name of the command; empty if the declaration gives none. -/
  command : String := ""
  /-- The words behind the name. -/
  sequence : List String := []
  /-- The short description. -/
  description : Option String := none
  /-- The help text. -/
  extendedHelp : Option String := none
  /-- Other names. -/
  aliases : List String := []
  /-- What is said about each parameter, in ascending order of names. -/
  params : List (String × Candidate) := []
  deriving Repr, DecidableEq

namespace Directive

/-- The words and the description of the first declaration. -/
def declared? (forms : List LineForm) : Option (List String × Option String) :=
  forms.findSome? fun
    | .declaration words description => some (words, description)
    | _ => none

/-- The help text of a comment by lines. A blank line stands between two of them if there is one in the
comment; `started` says whether there are lines before, and `apart` whether a blank line follows them. -/
def helpLines (started apart : Bool) : List LineForm → List (List Char)
  | [] => []
  | .help text :: forms =>
    if apart then [] :: text :: helpLines true false forms else text :: helpLines true false forms
  | .blank :: forms => helpLines started started forms
  | _ :: forms => helpLines started apart forms

/-- The aliases of a comment. -/
def aliasNames (forms : List LineForm) : List String :=
  forms.flatMap fun
    | .aliases names => names
    | _ => []

/-- Lay what an entry says over what is known about its parameter. -/
def addEntry (params : List (String × Candidate)) (name : String) (details : List Char) :
    List (String × Candidate) :=
  Ordered.update Ordered.stringBefore name
    (fun known => Candidate.overlay (known.getD {}) (Candidate.ofChars details)) params

/-- What the entries of a comment say about each parameter. -/
def paramEntries (params : List (String × Candidate)) : List LineForm → List (String × Candidate)
  | [] => params
  | .entry name details :: forms => paramEntries (addEntry params name details) forms
  | _ :: forms => paramEntries params forms

/-- What lines say together. -/
def ofForms (forms : List LineForm) : Directive :=
  let help := helpLines false false forms
  let words := ((declared? forms).map (·.1)).getD []
  { isCommand := (declared? forms).isSome
    command := words.headD ""
    sequence := words.tail
    description := (declared? forms).bind (·.2)
    extendedHelp := if help.isEmpty then none else some (String.ofList (List.intercalate ['\n'] help))
    aliases := aliasNames forms
    params := paramEntries [] forms }

end Directive

/-! ## Style -/

/-- The warning about a flags block without a blank line behind its head. -/
def missingBlankWarning (function : String) (number : Nat) : Warning :=
  ⟨.missingBlankAfterFlags, function,
    "line " ++ toString number ++ ": expected a blank line after 'Flags:'"⟩

/-- The warning about an entry that a space indents. -/
def spaceWarning (function : String) (number : Nat) : Warning :=
  ⟨.spaceIndentedFlags, function,
    "line " ++ toString number ++ ": Flags block entries should be indented with a tab"⟩

/-- What is wrong with the layout of lines, numbered from `number` on. Only the first entry that a space
indents is reported; `warned` says whether there was one before. -/
def styleWarnings (function : String) (warned : Bool) (number : Nat) : List CommentLine → List Warning
  | [] => []
  | line :: lines =>
    if line.inFlags then
      if !warned && line.text.head? == some ' ' then
        spaceWarning function number :: styleWarnings function true (number + 1) lines
      else styleWarnings function warned (number + 1) lines
    else if line.form == .flagsHead then
      match lines with
      | next :: _ =>
        if (trim next.text).isEmpty then styleWarnings function warned (number + 1) lines
        else missingBlankWarning function number :: styleWarnings function warned (number + 1) lines
      | [] => []
    else styleWarnings function warned (number + 1) lines

/-! ## Comments -/

/-- The lines of a comment with their forms: they are read step by step until none is left. -/
def commentLines (doc : String) : List CommentLine :=
  let start : Scan := { part := .opening, left := Comment.readableLines doc.toList }
  (Scan.run start.bound start).read

/-- What a comment declares, and what is wrong with its layout. -/
def readComment (function doc : String) : Directive × List Warning :=
  let lines := commentLines doc
  (Directive.ofForms (lines.map (·.form)), styleWarnings function false 1 lines)

end CommandDoc
