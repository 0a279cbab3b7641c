import CommandDoc.Data.Basic

/-!
# Writing JSON

A data tree as JSON text: on one line, or with one value per line and two spaces per level.

Main definitions:

- `Json.quote` writes a string literal.
- `Json.compact` and `Json.pretty` write a tree.
-/

namespace CommandDoc.Json

/-! ## Strings -/

/-- The lower case hexadecimal digit of a number below 16. -/
def hexDigit (n : Nat) : Char :=
  if n < 10 then Char.ofNat (n + 48) else Char.ofNat (n + 87)

/-- A character inside a string literal. Quotes, backslashes and control characters are escaped. -/
def quoteChar (c : Char) : List Char :=
  if c == '"' then ['\\', '"']
  else if c == '\\' then ['\\', '\\']
  else if c.toNat == 0x8 then ['\\', 'b']
  else if c.toNat == 0xc then ['\\', 'f']
  else if c == '\n' then ['\\', 'n']
  else if c == '\r' then ['\\', 'r']
  else if c == '\t' then ['\\', 't']
  else if c.toNat < 0x20 then ['\\', 'u', '0', '0', hexDigit (c.toNat / 16), hexDigit (c.toNat % 16)]
  else [c]

/-- A text as string literal. -/
def quote (s : String) : String :=
  String.ofList ('"' :: (s.toList.flatMap quoteChar ++ ['"']))

/-- The name of a key. Records are written with names alone; a number gives its digits. -/
def keyText : Key → String
  | .name text => text
  | .index n => toString n
  | .odd => ""

/-- A value that is neither a list nor a record. -/
def scalarText : Data → String
  | .null => "null"
  | .bool true => "true"
  | .bool false => "false"
  | .nat n => toString n
  | .minus n => "-" ++ toString n
  | .decimal text => text
  | .text s => quote s
  | .list _ => "[]"
  | .record _ => "\x7b\x7d"

/-! ## Trees -/

mutual

/-- A tree on one line without blanks. -/
def compact : Data → String
  | .list items => "[" ++ ",".intercalate (compactItems items) ++ "]"
  | .record fields => "\x7b" ++ ",".intercalate (compactFields fields) ++ "\x7d"
  | .null => scalarText .null
  | .bool b => scalarText (.bool b)
  | .nat n => scalarText (.nat n)
  | .minus n => scalarText (.minus n)
  | .decimal text => scalarText (.decimal text)
  | .text s => scalarText (.text s)

/-- The elements of a list, each on one line. -/
def compactItems : List Data → List String
  | [] => []
  | item :: items => compact item :: compactItems items

/-- The fields of a record, each on one line. -/
def compactFields : List (Key × Data) → List String
  | [] => []
  | (key, value) :: fields => (quote (keyText key) ++ ":" ++ compact value) :: compactFields fields

end

/-- The start of a line at a level. -/
def newline (level : Nat) : String :=
  String.ofList ('\n' :: List.replicate (2 * level) ' ')

/-- Entries between brackets, each on a line of its own; nothing stands between the brackets if there are
none. -/
def bracket (opening closing : String) (level : Nat) (entries : List String) : String :=
  if entries.isEmpty then opening ++ closing
  else
    opening ++ newline (level + 1) ++ ("," ++ newline (level + 1)).intercalate entries ++ newline level
      ++ closing

mutual

/-- A tree at a level, with one value per line. -/
def prettyAt (level : Nat) : Data → String
  | .list items => bracket "[" "]" level (prettyItems (level + 1) items)
  | .record fields => bracket "\x7b" "\x7d" level (prettyFields (level + 1) fields)
  | .null => scalarText .null
  | .bool b => scalarText (.bool b)
  | .nat n => scalarText (.nat n)
  | .minus n => scalarText (.minus n)
  | .decimal text => scalarText (.decimal text)
  | .text s => scalarText (.text s)

/-- The elements of a list at a level. -/
def prettyItems (level : Nat) : List Data → List String
  | [] => []
  | item :: items => prettyAt level item :: prettyItems level items

/-- The fields of a record at a level. -/
def prettyFields (level : Nat) : List (Key × Data) → List String
  | [] => []
  | (key, value) :: fields =>
    (quote (keyText key) ++ ": " ++ prettyAt level value) :: prettyFields level fields

end

/-- A tree with one value per line. -/
def pretty (value : Data) : String :=
  prettyAt 0 value

end CommandDoc.Json
