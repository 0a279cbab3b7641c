import CommandDoc.Proofs.Json.Leaf
import Mathlib.Data.List.Forall2

/-!
# Reading JSON text back

A tree of plain values that was written as JSON is read back, whether it stands on one line or with one value
per line.  The two layouts differ only in the blanks between the parts, so both are read back for one reason:
the text of a value is read to its end, whatever is left of the text behind it.

Main definitions:

- `Data.IsPlain`: trees that JSON text can hold, up to a depth.
- `Json.IsRead`: a text that is read as a value, wherever it stands.
- `Json.enclosed`: entries between brackets, with blanks.

Main results:

- Theorems `Json.isRead_list` and `Json.isRead_record`: from the texts of the parts to that of the whole.
- Theorems `Json.isRead_compact` and `Json.isRead_prettyAt`: both layouts are read back.
- Theorems `Json.read?_compact` and `Json.read?_pretty`: a whole text is read back.
-/

namespace CommandDoc

/-- A tree without decimal numbers and numbers below zero, with counts of at most 64 bits and with names as
keys, in which lists and records are nested at most `depth` deep. -/
inductive Data.IsPlain : Nat → Data → Prop where
  | null (depth : Nat) : IsPlain depth .null
  | bool (depth : Nat) (b : Bool) : IsPlain depth (.bool b)
  | nat (depth : Nat) {n : Nat} (h : IsCount n) : IsPlain depth (.nat n)
  | text (depth : Nat) (s : String) : IsPlain depth (.text s)
  | list {depth : Nat} {items : List Data} (h : ∀ item ∈ items, IsPlain depth item) :
    IsPlain (depth + 1) (.list items)
  | record {depth : Nat} {fields : List (Key × Data)}
    (hkeys : ∀ field ∈ fields, ∃ name, field.1 = .name name)
    (h : ∀ field ∈ fields, IsPlain depth field.2) : IsPlain (depth + 1) (.record fields)

namespace Json

/-! ## Values in a text -/

/-- Nothing but blanks. -/
def IsGap (cs : List Char) : Prop :=
  ∀ c ∈ cs, isGap c = true

/-- A text that is read as a value and nothing more, wherever it stands.  It does not start like the end of a
list, and the fuel it takes is twice its length. -/
structure IsRead (depth : Nat) (value : Data) (cs : List Char) : Prop where
  /-- The text starts with the value. -/
  head : ∃ c rest, cs = c :: rest ∧ isGap c = false ∧ c ≠ ']'
  /-- The text is read to its end. -/
  read : ∀ fuel rest, 2 * cs.length ≤ fuel → EndsValue rest →
    readValue fuel depth (cs ++ rest) = some (value, rest)

section Gaps

variable {gap cs : List Char}

/-- A gap in front of a text is skipped. -/
theorem skipGap_append (hgap : IsGap gap) (cs : List Char) : skipGap (gap ++ cs) = skipGap cs :=
  List.dropWhile_append_of_pos hgap

/-- A character that is no gap is not skipped. -/
theorem skipGap_cons {c : Char} (hc : isGap c = false) (cs : List Char) : skipGap (c :: cs) = c :: cs :=
  List.dropWhile_cons_of_neg (by simp [hc])

/-- Blanks in front of a value are skipped. -/
theorem readValue_gap (hgap : IsGap gap) (fuel depth : Nat) (cs : List Char) :
    readValue fuel depth (gap ++ cs) = readValue fuel depth cs := by
  cases fuel with
  | zero => rfl
  | succ fuel => rw [readValue, readValue, skipGap_append hgap]

/-- A gap ends a value if what is behind it does. -/
theorem IsGap.endsValue_append (hgap : IsGap gap) (h : EndsValue cs) : EndsValue (gap ++ cs) := by
  cases gap with
  | nil => exact h
  | cons c gap =>
    intro d hd
    rw [← Option.some.inj hd]
    have hc := hgap c List.mem_cons_self
    simp only [isGap, Bool.or_eq_true, beq_iff_eq] at hc
    rcases hc with ((rfl | rfl) | rfl) | rfl <;> decide

end Gaps

/-! ## Leaves -/

section Leaves

variable (depth : Nat)

/-- Null is read back. -/
theorem isRead_null : IsRead depth .null "null".toList where
  head := ⟨'n', "ull".toList, rfl, rfl, by decide⟩
  read fuel rest hfuel _ := by
    cases fuel with
    | zero => simp at hfuel
    | succ fuel => simp [readValue, skipGap, isGap, afterWord?]

/-- Truth values are read back. -/
theorem isRead_bool (b : Bool) : IsRead depth (.bool b) (scalarText (.bool b)).toList := by
  cases b with
  | false =>
    refine ⟨⟨'f', "alse".toList, rfl, rfl, by decide⟩, fun fuel rest hfuel _ => ?_⟩
    cases fuel with
    | zero => simp [scalarText] at hfuel
    | succ fuel => simp [scalarText, readValue, skipGap, isGap, afterWord?]
  | true =>
    refine ⟨⟨'t', "rue".toList, rfl, rfl, by decide⟩, fun fuel rest hfuel _ => ?_⟩
    cases fuel with
    | zero => simp [scalarText] at hfuel
    | succ fuel => simp [scalarText, readValue, skipGap, isGap, afterWord?]

/-- A digit is no gap. -/
theorem isGap_of_isDigit {c : Char} (h : c.isDigit = true) : isGap c = false := by
  cases hc : isGap c with
  | false => rfl
  | true =>
    simp only [isGap, Bool.or_eq_true, beq_iff_eq] at hc
    rcases hc with ((rfl | rfl) | rfl) | rfl <;> exact absurd h (by decide)

/-- A digit starts a number and nothing else. -/
theorem readValue_digit {c : Char} (hc : c.isDigit = true) (fuel : Nat) (cs : List Char) :
    readValue (fuel + 1) depth (c :: cs) = readNumber (c :: cs) := by
  have hother : ∀ d, d.isDigit = false → c ≠ d := by
    rintro d hd rfl
    exact Bool.false_ne_true (hd.symm.trans hc)
  simp [readValue, skipGap_cons (isGap_of_isDigit hc), hother '"' rfl, hother '[' rfl, hother '\x7b' rfl,
    hother 't' rfl, hother 'f' rfl, hother 'n' rfl]

/-- Numbers that fit into 64 bits are read back. -/
theorem isRead_nat {n : Nat} (hn : Data.IsCount n) : IsRead depth (.nat n) (toString n).toList := by
  rw [Nat.toString_eq_repr, Nat.toList_repr]
  cases hdigits : Nat.toDigits 10 n with
  | nil => exact absurd hdigits Nat.toDigits_ne_nil
  | cons c cs =>
    have hc : c.isDigit = true := Decimal.isDigit_of_mem_toDigits (hdigits ▸ List.mem_cons_self)
    refine ⟨⟨c, cs, rfl, isGap_of_isDigit hc, ?_⟩, fun fuel rest hfuel hrest => ?_⟩
    · rintro rfl
      exact absurd hc (by decide)
    · cases fuel with
      | zero => simp at hfuel
      | succ fuel =>
        rw [List.cons_append, readValue_digit depth hc, ← List.cons_append, ← hdigits,
          readNumber_toDigits hn hrest]

/-- A quoted text is its escaped characters between quotes. -/
@[simp] theorem toList_quote (s : String) : (quote s).toList = '"' :: (s.toList.flatMap quoteChar ++ ['"']) :=
  String.toList_ofList

/-- Quoting adds two characters at least. -/
theorem length_quote (s : String) : s.toList.length + 2 ≤ (quote s).toList.length := by
  have hle := length_le_flatMap_quoteChar s.toList
  rw [toList_quote, List.length_cons, List.length_append, List.length_singleton]
  omega

/-- Texts are read back. -/
theorem isRead_text (s : String) : IsRead depth (.text s) (quote s).toList where
  head := ⟨'"', _, toList_quote s, rfl, by decide⟩
  read fuel rest hfuel _ := by
    have hle := length_quote s
    cases fuel with
    | zero => omega
    | succ fuel =>
      have hread := readLiteral_flatMap (show s.toList.length < fuel by omega) rest
      simp [readValue, skipGap, isGap, hread]

end Leaves

/-! ## Lists and records -/

/-- Entries between brackets, with blanks in front of each and behind the last. -/
def enclosed (opening closing : Char) (gap close : List Char) (entries : List (List Char)) : List Char :=
  opening :: (gap ++ ((',' :: gap).intercalate entries ++ (close ++ [closing])))

/-- A text that is read as a field. -/
def IsFieldRead (depth : Nat) (field : Key × Data) (cs : List Char) : Prop :=
  ∃ name gap value, field.1 = .name name ∧ IsGap gap ∧ IsRead depth field.2 value ∧
    cs = (quote name).toList ++ ':' :: (gap ++ value)

section Trees

variable {depth : Nat} {gap close : List Char} {entries : List (List Char)}

/-- Entries with commas between them are read one after another, by a reader that goes on behind a comma and
stops at the closing bracket. -/
theorem read_intercalate {α : Type} {closing : Char} {isEntry : α → List Char → Prop}
    (read : Nat → List Char → Option (List α × List Char))
    (hlast : ∀ fuel x entry rest, isEntry x entry → 2 * entry.length ≤ fuel →
      read (fuel + 1) (gap ++ (entry ++ (close ++ closing :: rest))) = some ([x], rest))
    (hmore : ∀ fuel x entry rest, isEntry x entry → 2 * entry.length ≤ fuel →
      read (fuel + 1) (gap ++ (entry ++ ',' :: rest))
        = (read fuel rest).map fun found => (x :: found.1, found.2))
    {items : List α} (hne : items ≠ []) (h : List.Forall₂ isEntry items entries) {fuel : Nat}
    (hfuel : 2 * ((',' :: gap).intercalate entries).length < fuel) (rest : List Char) :
    read fuel (gap ++ ((',' :: gap).intercalate entries ++ (close ++ closing :: rest)))
      = some (items, rest) := by
  induction h generalizing fuel with
  | nil => exact absurd rfl hne
  | @cons item entry items entries hitem hitems ih =>
    cases fuel with
    | zero => omega
    | succ fuel =>
      cases hitems with
      | nil =>
        rw [List.intercalate_singleton] at hfuel ⊢
        exact hlast fuel item entry rest hitem (by omega)
      | @cons second entry' items entries hsecond hitems =>
        -- Two units of fuel stand for the comma, and reading the entry in front of it takes one.
        rw [List.intercalate_cons_cons, List.length_append, List.length_append, List.length_cons] at hfuel
        have hleft := ih (List.cons_ne_nil _ _) (show 2 * _ < fuel by omega)
        have hhead := hmore fuel item entry (gap ++ ((',' :: gap).intercalate (entry' :: entries) ++
          (close ++ closing :: rest))) hitem (by omega)
        rw [hleft] at hhead
        rw [List.intercalate_cons_cons]
        simpa using hhead

/-- A gap is skipped up to what closes a list or a record. -/
theorem skipGap_close (hclose : IsGap close) {c : Char} (hc : isGap c = false) (rest : List Char) :
    skipGap (close ++ c :: rest) = c :: rest := by
  rw [skipGap_append hclose, skipGap_cons hc]

/-- A comma ends a value. -/
theorem endsValue_comma (rest : List Char) : EndsValue (',' :: rest) := by
  simp [EndsValue]

/-- The items of a list are read one after another, as each ends at the comma or the bracket behind it. -/
theorem readItems_intercalate (hgap : IsGap gap) (hclose : IsGap close) {items : List Data} (hne : items ≠ [])
    (h : List.Forall₂ (IsRead depth) items entries) {fuel : Nat}
    (hfuel : 2 * ((',' :: gap).intercalate entries).length < fuel) (rest : List Char) :
    readItems fuel depth (gap ++ ((',' :: gap).intercalate entries ++ (close ++ ']' :: rest)))
      = some (items, rest) := by
  have hread : ∀ fuel item entry behind, IsRead depth item entry → 2 * entry.length ≤ fuel →
      EndsValue behind → readValue fuel depth (gap ++ (entry ++ behind)) = some (item, behind) := by
    intro fuel item entry behind hitem hle hends
    rw [readValue_gap hgap, hitem.read fuel behind hle hends]
  refine read_intercalate (readItems · depth) ?_ ?_ hne h hfuel rest
  · intro fuel item entry rest hitem hle
    have hends : EndsValue (close ++ ']' :: rest) := hclose.endsValue_append (by simp [EndsValue])
    have hclosing : skipGap (close ++ ']' :: rest) = ']' :: rest := skipGap_close hclose rfl rest
    simp [readItems, hread fuel item entry _ hitem hle hends, hclosing]
  · intro fuel item entry rest hitem hle
    have hcomma : skipGap (',' :: rest) = ',' :: rest := skipGap_cons rfl rest
    have hvalue := hread fuel item entry _ hitem hle (endsValue_comma rest)
    cases hrest : readItems fuel depth rest <;> simp [readItems, hvalue, hcomma, hrest]

/-- The key and the value of a field are read up to what stands behind the value. -/
theorem IsFieldRead.read {field : Key × Data} {entry : List Char} (h : IsFieldRead depth field entry)
    {fuel : Nat} (hfuel : 2 * entry.length ≤ fuel) {behind : List Char} (hends : EndsValue behind) :
    ∃ name key rest, field.1 = .name (String.ofList name) ∧ entry ++ behind = '"' :: key ∧
      readLiteral fuel key = some (name, ':' :: rest) ∧
      readValue fuel depth rest = some (field.2, behind) := by
  obtain ⟨name, colonGap, value, hkey, hgap, hvalue, rfl⟩ := h
  have hquote := length_quote name
  rw [List.length_append, List.length_cons, List.length_append] at hfuel
  refine ⟨name.toList, name.toList.flatMap quoteChar ++ '"' :: ':' :: (colonGap ++ (value ++ behind)),
    colonGap ++ (value ++ behind), by rw [hkey, String.ofList_toList], by simp, ?_, ?_⟩
  · exact readLiteral_flatMap (by omega) _
  · rw [readValue_gap hgap]
    exact hvalue.read fuel behind (by omega) hends

/-- So are the fields of a record. -/
theorem readFields_intercalate (hgap : IsGap gap) (hclose : IsGap close) {fields : List (Key × Data)}
    (hne : fields ≠ []) (h : List.Forall₂ (IsFieldRead depth) fields entries) {fuel : Nat}
    (hfuel : 2 * ((',' :: gap).intercalate entries).length < fuel) (rest : List Char) :
    readFields fuel depth (gap ++ ((',' :: gap).intercalate entries ++ (close ++ '\x7d' :: rest)))
      = some (fields, rest) := by
  refine read_intercalate (readFields · depth) ?_ ?_ hne h hfuel rest
  · intro fuel field entry rest hfield hle
    have hends : EndsValue (close ++ '\x7d' :: rest) := hclose.endsValue_append (by simp [EndsValue])
    have hclosing : skipGap (close ++ '\x7d' :: rest) = '\x7d' :: rest := skipGap_close hclose rfl rest
    obtain ⟨name, key, colon, hname, hentry, hkey, hvalue⟩ := hfield.read hle hends
    have hstart : skipGap (gap ++ '"' :: key) = '"' :: key := skipGap_close hgap rfl key
    have hcolon : skipGap (':' :: colon) = ':' :: colon := skipGap_cons rfl colon
    simp [readFields, hentry, hstart, hkey, hcolon, hvalue, hclosing, ← hname]
  · intro fuel field entry rest hfield hle
    have hcomma : skipGap (',' :: rest) = ',' :: rest := skipGap_cons rfl rest
    obtain ⟨name, key, colon, hname, hentry, hkey, hvalue⟩ := hfield.read hle (endsValue_comma rest)
    have hstart : skipGap (gap ++ '"' :: key) = '"' :: key := skipGap_close hgap rfl key
    have hcolon : skipGap (':' :: colon) = ':' :: colon := skipGap_cons rfl colon
    cases hrest : readFields fuel depth rest <;>
      simp [readFields, hentry, hstart, hkey, hcolon, hvalue, hcomma, ← hname, hrest]

/-- A list that is closed at once is empty. -/
theorem readValue_list_nil {cs behind : List Char} (h : skipGap cs = ']' :: behind) (fuel : Nat) :
    readValue (fuel + 1) (depth + 1) ('[' :: cs) = some (.list [], behind) := by
  rw [readValue, skipGap_cons rfl]
  simp [h]

/-- A list with something in it is read by its items. -/
theorem readValue_list {cs rest : List Char} {c : Char} (h : skipGap cs = c :: rest) (hc : c ≠ ']')
    (fuel : Nat) : readValue (fuel + 1) (depth + 1) ('[' :: cs)
      = (readItems fuel depth cs).map fun found => (.list found.1, found.2) := by
  rw [readValue, skipGap_cons rfl]
  simp [h, hc]

/-- A record that is closed at once is empty. -/
theorem readValue_record_nil {cs behind : List Char} (h : skipGap cs = '\x7d' :: behind) (fuel : Nat) :
    readValue (fuel + 1) (depth + 1) ('\x7b' :: cs) = some (.record [], behind) := by
  rw [readValue, skipGap_cons rfl]
  simp [h]

/-- A record with something in it is read by its fields. -/
theorem readValue_record {cs rest : List Char} {c : Char} (h : skipGap cs = c :: rest) (hc : c ≠ '\x7d')
    (fuel : Nat) : readValue (fuel + 1) (depth + 1) ('\x7b' :: cs)
      = (readFields fuel depth cs).map fun found => (.record found.1, found.2) := by
  rw [readValue, skipGap_cons rfl]
  simp [h, hc]

/-- Behind the opening bracket the first entry is the first that is no blank. -/
theorem skipGap_intercalate (hgap : IsGap gap) {c : Char} (hc : isGap c = false)
    (separator more rest : List Char) (entries : List (List Char)) :
    ∃ behind, skipGap (gap ++ (separator.intercalate ((c :: more) :: entries) ++ rest)) = c :: behind := by
  rw [skipGap_append hgap]
  cases entries with
  | nil =>
    rw [List.intercalate_singleton]
    exact ⟨_, skipGap_cons hc _⟩
  | cons second entries =>
    rw [List.intercalate_cons_cons]
    exact ⟨_, skipGap_cons hc _⟩

/-- Entries between brackets, in front of other text. -/
theorem enclosed_append (opening closing : Char) (gap close rest : List Char) (entries : List (List Char)) :
    enclosed opening closing gap close entries ++ rest
      = opening :: (gap ++ ((',' :: gap).intercalate entries ++ (close ++ closing :: rest))) := by
  simp [enclosed]

/-- The texts of a list's elements, put between brackets, are read as the list. -/
theorem isRead_list (hgap : IsGap gap) (hclose : IsGap close) {items : List Data}
    (h : List.Forall₂ (IsRead depth) items entries) :
    IsRead (depth + 1) (.list items) (enclosed '[' ']' gap close entries) where
  head := ⟨'[', _, rfl, rfl, by decide⟩
  read fuel rest hfuel _ := by
    rw [enclosed, List.length_cons, List.length_append, List.length_append, List.length_append] at hfuel
    rw [enclosed_append]
    cases fuel with
    | zero => omega
    | succ fuel =>
      cases h with
      | nil =>
        have hempty : skipGap (gap ++ (close ++ ']' :: rest)) = ']' :: rest := by
          rw [skipGap_append hgap, skipGap_close hclose rfl]
        exact readValue_list_nil hempty fuel
      | @cons item entry items entries hitem hitems =>
        obtain ⟨c, more, rfl, hc, hopen⟩ := hitem.head
        obtain ⟨behind, hstart⟩ := skipGap_intercalate hgap hc (',' :: gap) more (close ++ ']' :: rest) entries
        have hread := readItems_intercalate hgap hclose (List.cons_ne_nil _ _) (.cons hitem hitems)
          (show _ < fuel by omega) rest
        rw [readValue_list hstart hopen, hread]
        rfl

/-- The texts of a record's fields, put between braces, are read as the record. -/
theorem isRead_record (hgap : IsGap gap) (hclose : IsGap close) {fields : List (Key × Data)}
    (h : List.Forall₂ (IsFieldRead depth) fields entries) :
    IsRead (depth + 1) (.record fields) (enclosed '\x7b' '\x7d' gap close entries) where
  head := ⟨'\x7b', _, rfl, rfl, by decide⟩
  read fuel rest hfuel _ := by
    rw [enclosed, List.length_cons, List.length_append, List.length_append, List.length_append] at hfuel
    rw [enclosed_append]
    cases fuel with
    | zero => omega
    | succ fuel =>
      cases h with
      | nil =>
        have hempty : skipGap (gap ++ (close ++ '\x7d' :: rest)) = '\x7d' :: rest := by
          rw [skipGap_append hgap, skipGap_close hclose rfl]
        exact readValue_record_nil hempty fuel
      | @cons field entry fields entries hfield hfields =>
        have hread := readFields_intercalate hgap hclose (List.cons_ne_nil _ _) (.cons hfield hfields)
          (show _ < fuel by omega) rest
        obtain ⟨name, colonGap, value, hkey, hcolonGap, hvalue, rfl⟩ := hfield
        rw [toList_quote, List.cons_append] at hread ⊢
        obtain ⟨behind, hstart⟩ := skipGap_intercalate hgap (show isGap '"' = false from rfl) (',' :: gap) _
          (close ++ '\x7d' :: rest) entries
        rw [readValue_record hstart (by decide), hread]
        rfl

end Trees

/-! ## Both layouts -/

/-- The items of a compact list are written each on its own. -/
theorem compactItems_eq_map (items : List Data) : compactItems items = items.map compact := by
  induction items with
  | nil => simp [compactItems]
  | cons item items ih => simp [compactItems, ih]

/-- So are the fields of a compact record. -/
theorem compactFields_eq_map (fields : List (Key × Data)) :
    compactFields fields = fields.map fun field => quote (keyText field.1) ++ ":" ++ compact field.2 := by
  induction fields with
  | nil => simp [compactFields]
  | cons field fields ih => simp [compactFields, ih]

/-- The items of an indented list are written each on its own. -/
theorem prettyItems_eq_map (level : Nat) (items : List Data) :
    prettyItems level items = items.map (prettyAt level) := by
  induction items with
  | nil => simp [prettyItems]
  | cons item items ih => simp [prettyItems, ih]

/-- So are the fields of an indented record. -/
theorem prettyFields_eq_map (level : Nat) (fields : List (Key × Data)) :
    prettyFields level fields
      = fields.map fun field => quote (keyText field.1) ++ ": " ++ prettyAt level field.2 := by
  induction fields with
  | nil => simp [prettyFields]
  | cons field fields ih => simp [prettyFields, ih]

section Writers

variable {depth : Nat} {write : Data → String}

/-- Items that are read back one by one are read back in order. -/
theorem forall₂_isRead {items : List Data} (h : ∀ item ∈ items, IsRead depth item (write item).toList) :
    List.Forall₂ (IsRead depth) items ((items.map write).map String.toList) := by
  rw [List.map_map, List.forall₂_map_right_iff, List.forall₂_same]
  exact h

/-- Fields are read back if their values are, with any blanks behind the colon. -/
theorem forall₂_isFieldRead {fields : List (Key × Data)} {gap : List Char} (hgap : IsGap gap)
    (hkeys : ∀ field ∈ fields, ∃ name, field.1 = .name name)
    (h : ∀ field ∈ fields, IsRead depth field.2 (write field.2).toList) :
    List.Forall₂ (IsFieldRead depth) fields
      ((fields.map fun field => quote (keyText field.1) ++ String.ofList (':' :: gap) ++ write field.2).map
        String.toList) := by
  rw [List.map_map, List.forall₂_map_right_iff, List.forall₂_same]
  intro field hfield
  obtain ⟨name, hname⟩ := hkeys field hfield
  exact ⟨name, gap, _, hname, hgap, h field hfield, by simp [hname, keyText]⟩

end Writers

theorem isGap_nil : IsGap [] :=
  List.forall_mem_nil _

/-- A line end with an indentation is a gap. -/
theorem isGap_newline (level : Nat) : IsGap (newline level).toList := by
  intro c hc
  rw [newline, String.toList_ofList, List.mem_cons, List.mem_replicate] at hc
  rcases hc with rfl | ⟨-, rfl⟩ <;> rfl

/-- A tree on one line is read back. -/
theorem isRead_compact {depth : Nat} {value : Data} (h : value.IsPlain depth) :
    IsRead depth value (compact value).toList := by
  induction h with
  | null depth =>
    rw [compact]
    exact isRead_null depth
  | bool depth b =>
    rw [compact]
    exact isRead_bool depth b
  | nat depth hn =>
    rw [compact]
    exact isRead_nat depth hn
  | text depth s =>
    rw [compact]
    exact isRead_text depth s
  | list _ ih =>
    rw [compact, compactItems_eq_map]
    simpa [enclosed, String.toList_intercalate] using isRead_list isGap_nil isGap_nil (forall₂_isRead ih)
  | record hkeys _ ih =>
    rw [compact, compactFields_eq_map]
    simpa [enclosed, String.toList_intercalate] using
      isRead_record isGap_nil isGap_nil (forall₂_isFieldRead isGap_nil hkeys ih)

/-- Entries on lines of their own are enclosed in brackets. -/
theorem toList_bracket (opening closing : Char) (level : Nat) (entries : List String) :
    ∃ gap close, IsGap gap ∧ IsGap close ∧
      (bracket (String.singleton opening) (String.singleton closing) level entries).toList
        = enclosed opening closing gap close (entries.map String.toList) := by
  cases entries with
  | nil => exact ⟨[], [], isGap_nil, isGap_nil, by simp [bracket, enclosed]⟩
  | cons entry entries =>
    refine ⟨_, _, isGap_newline (level + 1), isGap_newline level, ?_⟩
    simp [bracket, enclosed, String.toList_intercalate]

/-- A tree with one value per line is read back. -/
theorem isRead_prettyAt {depth : Nat} {value : Data} (h : value.IsPlain depth) (level : Nat) :
    IsRead depth value (prettyAt level value).toList := by
  induction h generalizing level with
  | null depth =>
    rw [prettyAt]
    exact isRead_null depth
  | bool depth b =>
    rw [prettyAt]
    exact isRead_bool depth b
  | nat depth hn =>
    rw [prettyAt]
    exact isRead_nat depth hn
  | text depth s =>
    rw [prettyAt]
    exact isRead_text depth s
  | @list depth items _ ih =>
    obtain ⟨gap, close, hgap, hclose, htext⟩ := toList_bracket '[' ']' level (items.map (prettyAt (level + 1)))
    rw [prettyAt, prettyItems_eq_map]
    exact htext ▸ isRead_list hgap hclose (forall₂_isRead fun item hitem => ih item hitem (level + 1))
  | @record depth fields hkeys _ ih =>
    have hblank : IsGap [' '] := by simp [IsGap, isGap]
    have hfields := forall₂_isFieldRead hblank hkeys fun field hfield => ih field hfield (level + 1)
    obtain ⟨gap, close, hgap, hclose, htext⟩ := toList_bracket '\x7b' '\x7d' level
      (prettyFields (level + 1) fields)
    rw [prettyFields_eq_map] at htext
    rw [prettyAt, prettyFields_eq_map]
    exact htext ▸ isRead_record hgap hclose hfields

/-! ## Whole texts -/

/-- A text with a single value that is read back is read as this value. -/
theorem IsRead.read? {value : Data} {text : String} (h : IsRead 127 value text.toList) :
    read? text = some value := by
  have hvalue := h.read (2 * text.toList.length + 2) [] (by omega) (by simp [EndsValue])
  rw [List.append_nil] at hvalue
  rw [Json.read?, hvalue]
  rfl

/-- A tree is read back from its text on one line. -/
theorem read?_compact {value : Data} (h : value.IsPlain 127) : read? (compact value) = some value :=
  (isRead_compact h).read?

/-- A tree is read back from its text with one value per line. -/
theorem read?_pretty {value : Data} (h : value.IsPlain 127) : read? (pretty value) = some value :=
  (isRead_prettyAt h 0).read?

end Json

end CommandDoc
