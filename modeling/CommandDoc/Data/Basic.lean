/-!
# Data trees

Declaration files, models and reports are trees of plain values: texts, numbers, truth values, lists and
records. Every type of the library that is read from a file or shown as one is converted to and from such
a tree, so that the textual formats have to know nothing else.

Main definitions:

- `Data` and `Key`.
- `Data.ofFields`: a record of the fields that are present.
- `Data.asNat?`, `Data.asText?`, `Data.asList?`, …: reading one value.
- `Data.slots?`: the values of a record's fields, given by name or in order.
-/

namespace CommandDoc

/-! ## Trees -/

/-- The key of a record's field. -/
inductive Key where
  /-- A field given by its name. -/
  | name (text : String)
  /-- A field given by its number. -/
  | index (n : Nat)
  /-- A key that no field can have, such as a list. -/
  | odd
  deriving Repr, DecidableEq

/-- A tree of plain values. -/
inductive Data where
  /-- No value. -/
  | null
  /-- A truth value. -/
  | bool (b : Bool)
  /-- A natural number. -/
  | nat (n : Nat)
  /-- A number below zero, or zero with a minus sign; the field is its absolute value. -/
  | minus (n : Nat)
  /-- A number that is no integer, as it was written. -/
  | decimal (text : String)
  /-- A text. -/
  | text (s : String)
  /-- A list. -/
  | list (items : List Data)
  /-- A record: fields with their keys, in order. -/
  | record (fields : List (Key × Data))
  deriving Repr

namespace Data

/-! ## Building records -/

/-- A list of texts. -/
def texts (items : List String) : Data :=
  .list (items.map .text)

/-- A field of a record to be built, which can be left out. -/
abbrev Field := Option (Key × Data)

namespace Field

/-- A field that is always there. -/
def present (name : String) (value : Data) : Field :=
  some (.name name, value)

/-- A field that is left out when there is no value. -/
def optional {α : Type} (name : String) (encode : α → Data) (value : Option α) : Field :=
  value.map fun v => (.name name, encode v)

/-- A field of texts that is left out when there are none. -/
def unlessEmpty (name : String) (items : List String) : Field :=
  if items.isEmpty then none else present name (texts items)

end Field

/-- The record of the fields that are there. -/
def ofFields (fields : List Field) : Data :=
  .record (fields.filterMap id)

/-! ## Reading values -/

/-- The text of a value that is one. -/
def asText? : Data → Option String
  | .text s => some s
  | _ => none

/-- The truth value of a value that is one. -/
def asBool? : Data → Option Bool
  | .bool b => some b
  | _ => none

/-- The natural number of a value that is one, if it is below the bound; minus zero is zero. -/
def asNatBelow? (bound : Nat) : Data → Option Nat
  | .nat n => if n < bound then some n else none
  | .minus 0 => some 0
  | _ => none

/-- A count: a natural number of at most 64 bits. -/
def asCount? (value : Data) : Option Nat :=
  value.asNatBelow? 18446744073709551616

/-- A natural number of at most 32 bits. -/
def asWord? (value : Data) : Option UInt32 :=
  (value.asNatBelow? 4294967296).map UInt32.ofNat

/-- The elements of a list, each of them read. -/
def asList? {α : Type} (decode : Data → Option α) : Data → Option (List α)
  | .list items => items.mapM decode
  | _ => none

/-- A value that can be absent. -/
def asOption? {α : Type} (decode : Data → Option α) : Data → Option (Option α)
  | .null => some none
  | value => (decode value).map some

/-! ## Reading records -/

/-- Whether a key stands for the field with this name and number. -/
def keyIs (name : String) (index : Nat) : Key → Bool
  | .name given => given == name
  | .index n => n == index
  | .odd => false

/-- The value of a field; `none` if the field is given twice. -/
def slot? (fields : List (Key × Data)) (name : String) (index : Nat) : Option (Option Data) :=
  match fields.filter fun entry => keyIs name index entry.1 with
  | [] => some none
  | [entry] => some (some entry.2)
  | _ => none

/-- The values of the named fields, numbered from `index` on. -/
def slotsFrom? (fields : List (Key × Data)) (index : Nat) : List String → Option (List (Option Data))
  | [] => some []
  | name :: names => do
    let first ← slot? fields name index
    let rest ← slotsFrom? fields (index + 1) names
    return first :: rest

/-- The values of the named fields of a record. The fields of a list are its elements in order, of which
the last can be missing. A field given twice is refused, and so is a key that no field can have; other
unknown fields are ignored. -/
def slots? (names : List String) : Data → Option (List (Option Data))
  | .record fields =>
    if fields.any fun entry => entry.1 == .odd then none else slotsFrom? fields 0 names
  | .list items =>
    if names.length < items.length then none
    else some (items.map some ++ List.replicate (names.length - items.length) none)
  | _ => none

/-- A field that must be there. -/
def need {α : Type} (decode : Data → Option α) (slot : Option Data) : Option α :=
  slot.bind decode

/-- A field with a value for the case that it is missing. -/
def orElse {α : Type} (decode : Data → Option α) (missing : α) (slot : Option Data) : Option α :=
  match slot with
  | some value => decode value
  | none => some missing

/-- A field that can be missing or absent. -/
def maybe {α : Type} (decode : Data → Option α) (slot : Option Data) : Option (Option α) :=
  orElse (asOption? decode) none slot

end Data

end CommandDoc
