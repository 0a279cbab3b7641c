import CommandDoc.Data.Param
import CommandDoc.Proofs.Json.RoundTrip

/-!
# Records and their fields

A record that was built of fields gives back the value of each, and a field that was left out as absent is read
as absent.

Main definitions:

- `Data.Field.IsFor`: a field that is left out or stands under its name.
- `Data.Field.value`: the value of a field.

Main results:

- Theorem `Data.slots?_ofFields`: the values of a record are those of its fields.
- Theorems `Data.maybe_map` and `Data.asList?_map`: absent values and lists are read back.
- Theorem `Data.isPlain_ofFields`: a record of plain fields is plain.
-/

namespace CommandDoc.Data

/-! ## Fields -/

namespace Field

/-- A field that is left out or stands under its name. -/
def IsFor (name : String) (field : Field) : Prop :=
  ∀ entry ∈ field, entry.1 = .name name

/-- The value of a field that is there. -/
def value (field : Field) : Option Data :=
  field.map Prod.snd

variable {name : String}

/-- A field that is always there has its name. -/
@[simp] theorem isFor_present (name : String) (v : Data) : (present name v).IsFor name := by
  rintro entry ⟨⟩
  rfl

/-- A field that can be missing has its name if it is there. -/
@[simp] theorem isFor_optional {α : Type} (name : String) (encode : α → Data) (v : Option α) :
    (optional name encode v).IsFor name := by
  cases v with
  | none => nofun
  | some v =>
    rintro entry ⟨⟩
    rfl

/-- The value of a field that is always there. -/
@[simp] theorem value_present (name : String) (v : Data) : (present name v).value = some v := rfl

/-- The value of a field that can be missing. -/
@[simp] theorem value_optional {α : Type} (name : String) (encode : α → Data) (v : Option α) :
    (optional name encode v).value = v.map encode := by
  cases v with
  | none => rfl
  | some v => rfl

end Field

/-! ## Records -/

section Slots

variable {names : List String} {fields : List Field} {name given : String}

/-- The entries of a record are those of its first field and of the others. -/
theorem filterMap_id_cons (field : Field) (fields : List Field) :
    (field :: fields).filterMap id = field.toList ++ fields.filterMap id := by
  cases field with
  | none => rfl
  | some entry => rfl

/-- An entry is found by the name of its field, and by no other. -/
theorem filter_keyIs_toList {field : Field} (h : field.IsFor given) (name : String) (index : Nat) :
    field.toList.filter (fun entry => keyIs name index entry.1)
      = if given = name then field.toList else [] := by
  cases field with
  | none => simp
  | some entry =>
    have hkey : keyIs name index entry.1 = (given == name) := by rw [h entry rfl, keyIs]
    simp [List.filter_cons, hkey]

/-- Fields with other names do not stand under a name. -/
theorem filter_keyIs_eq_nil (h : List.Forall₂ Field.IsFor names fields) (hname : name ∉ names) (index : Nat) :
    (fields.filterMap id).filter (fun entry => keyIs name index entry.1) = [] := by
  induction h with
  | nil => rfl
  | cons hfield _ ih =>
    rw [List.mem_cons, not_or] at hname
    rw [filterMap_id_cons, List.filter_append, filter_keyIs_toList hfield, if_neg (Ne.symm hname.1),
      ih hname.2, List.append_nil]

/-- Among fields with different names only one stands under its name. -/
theorem filter_keyIs_eq_toList (hnodup : names.Nodup) (h : List.Forall₂ Field.IsFor names fields)
    {field : Field} (hmem : (name, field) ∈ names.zip fields) (index : Nat) :
    (fields.filterMap id).filter (fun entry => keyIs name index entry.1) = field.toList := by
  induction h with
  | nil => simp at hmem
  | @cons given first names fields hfirst hfields ih =>
    rw [List.nodup_cons] at hnodup
    rw [List.zip_cons_cons, List.mem_cons] at hmem
    rw [filterMap_id_cons, List.filter_append, filter_keyIs_toList hfirst]
    rcases hmem with heq | hmem
    · obtain ⟨rfl, rfl⟩ := Prod.mk.inj heq
      rw [if_pos rfl, filter_keyIs_eq_nil hfields hnodup.1, List.append_nil]
    · have hother : given ≠ name := by
        rintro rfl
        exact hnodup.1 (List.of_mem_zip hmem).1
      rw [if_neg hother, ih hnodup.2 hmem, List.nil_append]

/-- Among fields with different names each is found by its name. -/
theorem slot?_filterMap (hnodup : names.Nodup) (h : List.Forall₂ Field.IsFor names fields)
    {field : Field} (hmem : (name, field) ∈ names.zip fields) (index : Nat) :
    slot? (fields.filterMap id) name index = some field.value := by
  rw [slot?, filter_keyIs_eq_toList hnodup h hmem]
  cases field with
  | none => rfl
  | some entry => rfl

/-- If each field is found by its name, all of them are found together. -/
theorem slotsFrom?_eq_some {entries : List (Key × Data)} (hlength : names.length = fields.length)
    (h : ∀ pair ∈ names.zip fields, ∀ index, slot? entries pair.1 index = some pair.2.value) (index : Nat) :
    slotsFrom? entries index names = some (fields.map Field.value) := by
  induction names generalizing fields index with
  | nil =>
    cases fields with
    | nil => rfl
    | cons field fields => simp at hlength
  | cons name names ih =>
    cases fields with
    | nil => simp at hlength
    | cons field fields =>
      rw [List.zip_cons_cons, List.forall_mem_cons] at h
      have hrest := ih (by simpa using hlength) h.2 (index + 1)
      simp [slotsFrom?, h.1, hrest]

/-- Every key of a record that is written is a name. -/
theorem any_odd_eq_false (h : List.Forall₂ Field.IsFor names fields) :
    (fields.filterMap id).any (fun entry => entry.1 == .odd) = false := by
  induction h with
  | nil => rfl
  | @cons name field names fields hfield _ ih =>
    rw [filterMap_id_cons, List.any_append, ih, Bool.or_false]
    cases field with
    | none => rfl
    | some entry => simp [hfield entry rfl]

/-- The values of a record with different names are those of its fields, whether they are there or not. -/
theorem slots?_ofFields (hnodup : names.Nodup) (h : List.Forall₂ Field.IsFor names fields) :
    (ofFields fields).slots? names = some (fields.map Field.value) := by
  rw [ofFields, slots?, any_odd_eq_false h, if_neg Bool.false_ne_true]
  exact slotsFrom?_eq_some h.length_eq (fun pair hpair => slot?_filterMap hnodup h hpair) 0

/-- A record is not null. -/
theorem ofFields_ne_null (fields : List Field) : ofFields fields ≠ .null := by
  simp [ofFields]

end Slots

/-! ## Reading values back -/

section Decode

variable {α : Type} {decode : Data → Option α} {encode : α → Data}

/-- A value that is there is decoded. -/
@[simp] theorem need_some (decode : Data → Option α) (v : Data) : need decode (some v) = decode v := rfl

/-- So it is if it could be missing. -/
@[simp] theorem orElse_some (decode : Data → Option α) (missing : α) (v : Data) :
    orElse decode missing (some v) = decode v := rfl

/-- A text is read as itself. -/
@[simp] theorem asText?_text (s : String) : asText? (.text s) = some s := rfl

/-- A truth value is read as itself. -/
@[simp] theorem asBool?_bool (b : Bool) : asBool? (.bool b) = some b := rfl

/-- A number that fits into 64 bits is read as itself. -/
theorem asCount?_nat {n : Nat} (h : IsCount n) : asCount? (.nat n) = some n :=
  if_pos h

/-- A number of 32 bits is read as itself. -/
@[simp] theorem asWord?_word (n : UInt32) : asWord? (.word n) = some n := by
  have hsmall : n.toNat < 4294967296 := n.toNat_lt
  simp [asWord?, word, asNatBelow?, hsmall]

/-- A list is read back if its elements are. -/
theorem asList?_map {items : List α} (h : ∀ item ∈ items, decode (encode item) = some item) :
    asList? decode (.list (items.map encode)) = some items := by
  rw [asList?, List.mapM_map]
  induction items with
  | nil => rfl
  | cons item items ih =>
    rw [List.forall_mem_cons] at h
    simp [h.1, ih h.2]

/-- A list of texts is read as itself. -/
@[simp] theorem asTexts?_texts (items : List String) : asTexts? (.texts items) = some items :=
  asList?_map fun _ _ => rfl

/-- A value that can be absent is read back, if no value looks as if there was none. -/
theorem maybe_map {v : Option α} (hne : ∀ a, encode a ≠ .null) (h : ∀ a ∈ v, decode (encode a) = some a) :
    maybe decode (v.map encode) = some v := by
  cases v with
  | none => rfl
  | some a =>
    have ha := h a rfl
    have hnull := hne a
    cases hvalue : encode a with
    | null => exact absurd hvalue hnull
    | _ =>
      rw [hvalue] at ha
      simp [maybe, asOption?, hvalue, ha]

/-- A text that can be missing is read as itself. -/
@[simp] theorem maybe_text (v : Option String) : maybe asText? (v.map .text) = some v :=
  maybe_map (by simp) (by simp)

/-- So is a number of 32 bits that can be missing. -/
@[simp] theorem maybe_word (v : Option UInt32) : maybe asWord? (v.map .word) = some v :=
  maybe_map (by simp [word]) (by simp)

end Decode

/-! ## Plain records -/

section Plain

variable {depth : Nat}

@[simp] theorem isPlain_text (s : String) : IsPlain depth (.text s) := .text depth s

@[simp] theorem isPlain_bool (b : Bool) : IsPlain depth (.bool b) := .bool depth b

/-- A number is plain exactly if it fits into 64 bits. -/
@[simp] theorem isPlain_nat {n : Nat} : IsPlain depth (.nat n) ↔ IsCount n := by
  constructor
  · rintro ⟨⟩
    assumption
  · exact .nat depth

/-- A number of 32 bits fits. -/
@[simp] theorem isPlain_word (n : UInt32) : IsPlain depth (.word n) :=
  .nat depth (n.toNat_lt.trans (by decide))

/-- A list is plain exactly if its items are, one level below. -/
@[simp] theorem isPlain_list {items : List Data} :
    IsPlain (depth + 1) (.list items) ↔ ∀ item ∈ items, IsPlain depth item := by
  constructor
  · rintro ⟨⟩
    assumption
  · exact .list

/-- A list of texts is plain. -/
@[simp] theorem isPlain_texts (items : List String) : IsPlain (depth + 1) (.texts items) := by
  simp [texts]

namespace Field

/-- A field that is left out, or has a name and a plain value. -/
def IsPlain (depth : Nat) (field : Field) : Prop :=
  ∀ entry ∈ field, (∃ name, entry.1 = .name name) ∧ entry.2.IsPlain depth

/-- A field that is always there is plain exactly if its value is. -/
@[simp] theorem isPlain_present (name : String) (v : Data) :
    (present name v).IsPlain depth ↔ v.IsPlain depth := by
  simp [IsPlain, present]

/-- A field that can be missing is plain exactly if its value is, when it has one. -/
@[simp] theorem isPlain_optional {α : Type} (name : String) (encode : α → Data) (v : Option α) :
    (optional name encode v).IsPlain depth ↔ ∀ a ∈ v, (encode a).IsPlain depth := by
  simp [IsPlain, optional]

end Field

/-- A record of plain fields is plain. -/
theorem isPlain_ofFields {fields : List Field} (h : ∀ field ∈ fields, field.IsPlain depth) :
    (ofFields fields).IsPlain (depth + 1) := by
  have hentry : ∀ entry ∈ fields.filterMap id, (∃ name, entry.1 = .name name) ∧ entry.2.IsPlain depth := by
    intro entry hentry
    obtain ⟨field, hfield, heq⟩ := List.mem_filterMap.mp hentry
    exact h field hfield entry heq
  exact .record (fun entry hmem => (hentry entry hmem).1) fun entry hmem => (hentry entry hmem).2

end Plain

end CommandDoc.Data
