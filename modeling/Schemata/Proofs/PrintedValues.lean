import Schemata.Proofs.PrintedNumbers

/-! What values are printed as. A value that JSON has no form for is not printed, and one that JSON cannot say exactly
may be printed all the same: not all that stands for a number is one, and keys get names. -/

namespace Schemata

theorem map_eq_ok {wrap : α → β} {outcome : Except ε α} {value : β} :
    outcome.map wrap = .ok value ↔ ∃ inner, outcome = .ok inner ∧ wrap inner = value := by
  cases outcome <;> simp [Except.map]

theorem bind_eq_ok {outcome : Except ε α} {next : α → Except ε β} {value : β} :
    outcome >>= next = .ok value ↔ ∃ inner, outcome = .ok inner ∧ next inner = .ok value := by
  cases outcome <;> simp [bind, Except.bind]

namespace Json

def pointUnits : Text.CodePoint → List UInt16
  | .char c => charUnits c
  | .surrogate index => [.ofNat (Text.CodePoint.surrogate index).number]

def units (text : String) : List UInt16 := (Text.codePoints text).flatMap pointUnits

theorem unitText_surrogate {number : Nat} (above : 0xD800 ≤ number) (below : number < 0xE000) :
    unitText (.ofNat number) = Value.unitEscape number := by
  have own : (UInt16.ofNat number).toNat = number := UInt16.toNat_ofNat_of_lt (by simp [UInt16.size]; omega)
  rw [unitText, own, if_pos (by simp [above, below])]

theorem unitText_charUnits (c : Char) : (charUnits c).flatMap unitText = Value.jsonChar c := by
  have valid := c.valid
  have bound : c.toNat < 0x110000 := by
    have := valid
    simp only [UInt32.isValidChar, Nat.isValidChar] at this
    show c.val.toNat < _
    omega
  unfold charUnits
  split
  next small =>
    have own : (UInt16.ofNat c.toNat).toNat = c.toNat := UInt16.toNat_ofNat_of_lt (by simp [UInt16.size]; omega)
    have noSurrogate : ¬ (0xD800 ≤ c.toNat ∧ c.toNat < 0xE000) := by
      simp only [UInt32.isValidChar, Nat.isValidChar] at valid
      show ¬ (0xD800 ≤ c.val.toNat ∧ c.val.toNat < 0xE000)
      omega
    rw [List.flatMap_cons, List.flatMap_nil, List.append_nil, unitText, own, if_neg (by simpa using noSurrogate),
      Char.ofNat_toNat]
  next large =>
    have wide (d : Char) (narrow : d.toNat < 0x10000) : c ≠ d := by
      rintro rfl
      exact large narrow
    rw [List.flatMap_cons, List.flatMap_cons, List.flatMap_nil, List.append_nil,
      unitText_surrogate (by omega) (by omega), unitText_surrogate (by omega) (by omega)]
    unfold Value.jsonChar
    rw [if_neg (wide _ (by decide)), if_neg (wide _ (by decide)), if_neg (wide _ (by decide)),
      if_neg (wide _ (by decide)), if_neg (wide _ (by decide)), if_neg (wide _ (by decide)), if_neg (wide _ (by decide)),
      if_neg (by simp; omega), if_neg large]

theorem unitText_pointUnits (point : Text.CodePoint) : (pointUnits point).flatMap unitText = Value.jsonPoint point := by
  cases point with
  | char c => exact unitText_charUnits c
  | surrogate index =>
    rw [pointUnits, List.flatMap_cons, List.flatMap_nil, List.append_nil]
    refine unitText_surrogate (Nat.le_add_right _ _) ?_
    simp only [Text.CodePoint.number, Text.CodePoint.firstSurrogate]
    omega

theorem quoted_units (text : String) : quoted (units text) = Value.jsonString text := by
  rw [quoted, Value.jsonString, units, List.flatMap_assoc]
  simp only [unitText_pointUnits]

end Json

namespace Value

mutual

/-- The JSON data that a value is printed as, inside the collections of some marks. Keys are named, and a pair is a
list. -/
def jsonForm (around : List Nat) : Value → Except JsonError Json
  | .null => .ok .null
  | .bool value => .ok (.bool value)
  | .int value => (jsonInt value).map fun literal => .number literal.toList
  | .float value => .ok (.number (value.textWith "NaN" "Infinity").toList)
  | .text value => .ok (.string (Json.units value))
  | .list items => (itemForms around items).map .array
  | .pair first second => do return .array [← jsonForm around first, ← jsonForm around second]
  | .map entries => (entryForms around entries).map .object
  | .knot mark collection => if around.contains mark then .error .endless else jsonForm (mark :: around) collection
  | .again .. => .error .endless
  | _ => .error .noForm

def itemForms (around : List Nat) : List Value → Except JsonError (List Json)
  | [] => .ok []
  | item :: rest => do return (← jsonForm around item) :: (← itemForms around rest)

def entryForms (around : List Nat) : List (Value × Value) → Except JsonError (List (List UInt16 × Json))
  | [] => .ok []
  | (key, value) :: rest => do
    let name ← jsonName key
    return (Json.units name, ← jsonForm around value) :: (← entryForms around rest)

end

mutual

theorem jsonWithin_eq (layout : Layout) (around : List Nat) (depth : Nat) (value : Value) :
    jsonWithin layout around depth value = (jsonForm around value).map (Json.text layout depth) := by
  cases value with
  | null | bool | date | moment | bytes | set | again => rfl
  | int value =>
    rw [jsonWithin, jsonForm]
    cases jsonInt value <;> simp [Except.map, Json.text]
  | float value => simp [jsonWithin, jsonForm, Except.map, Json.text]
  | text value => simp [jsonWithin, jsonForm, Except.map, Json.text, Json.quoted_units]
  | list items =>
    rw [jsonWithin, jsonForm, jsonItems_eq]
    cases itemForms around items <;> rfl
  | pair first second =>
    rw [jsonWithin, jsonForm, jsonWithin_eq, jsonWithin_eq]
    cases jsonForm around first with
    | error => rfl
    | ok => cases jsonForm around second <;> rfl
  | map entries =>
    rw [jsonWithin, jsonForm, jsonEntries_eq]
    cases entryForms around entries <;> rfl
  | knot mark collection =>
    rw [jsonWithin, jsonForm]
    split
    · rfl
    · exact jsonWithin_eq layout (mark :: around) depth collection

theorem jsonItems_eq (layout : Layout) (around : List Nat) (depth : Nat) (items : List Value) :
    jsonItems layout around depth items = (itemForms around items).map (Json.texts layout depth) := by
  cases items with
  | nil => rfl
  | cons item rest =>
    rw [jsonItems, itemForms, jsonWithin_eq, jsonItems_eq]
    cases jsonForm around item with
    | error => rfl
    | ok => cases itemForms around rest <;> rfl

theorem jsonEntries_eq (layout : Layout) (around : List Nat) (depth : Nat) (entries : List (Value × Value)) :
    jsonEntries layout around depth entries = (entryForms around entries).map (Json.memberTexts layout depth) := by
  cases entries with
  | nil => rfl
  | cons entry rest =>
    obtain ⟨key, value⟩ := entry
    rw [jsonEntries, entryForms, jsonWithin_eq, jsonEntries_eq]
    cases jsonName key with
    | error => rfl
    | ok name =>
      cases jsonForm around value with
      | error => rfl
      | ok =>
        cases entryForms around rest with
        | error => rfl
        | ok =>
          simp [bind, Except.bind, pure, Except.pure, Except.map, Json.memberTexts, Json.quoted_units]

end

theorem json_eq (layout : Layout) (value : Value) : value.json layout = (jsonForm [] value).map (Json.text layout 0) :=
  jsonWithin_eq layout [] 0 value

variable {around : List Nat}

theorem jsonForm_int {value : Int} {form : Json} :
    jsonForm around (.int value) = .ok form ↔
      Text.isWritable value = true ∧ .number (toString value).toList = form := by
  simp only [jsonForm, jsonInt]
  split <;> simp_all [Except.map]

theorem jsonForm_list {items : List Value} {form : Json} :
    jsonForm around (.list items) = .ok form ↔ ∃ forms, itemForms around items = .ok forms ∧ .array forms = form :=
  map_eq_ok

theorem jsonForm_map {entries : List (Value × Value)} {form : Json} :
    jsonForm around (.map entries) = .ok form ↔ ∃ forms, entryForms around entries = .ok forms ∧ .object forms = form :=
  map_eq_ok

theorem jsonForm_pair {first second : Value} {form : Json} :
    jsonForm around (.pair first second) = .ok form ↔ ∃ one two, jsonForm around first = .ok one ∧
      jsonForm around second = .ok two ∧ .array [one, two] = form := by
  simp only [jsonForm, bind_eq_ok, pure, Except.pure, Except.ok.injEq, exists_and_left]

theorem itemForms_cons {item : Value} {rest : List Value} {forms : List Json} :
    itemForms around (item :: rest) = .ok forms ↔ ∃ first others, jsonForm around item = .ok first ∧
      itemForms around rest = .ok others ∧ first :: others = forms := by
  simp only [itemForms, bind_eq_ok, pure, Except.pure, Except.ok.injEq, exists_and_left]

theorem entryForms_cons {key value : Value} {rest : List (Value × Value)} {forms : List (List UInt16 × Json)} :
    entryForms around ((key, value) :: rest) = .ok forms ↔ ∃ name first others, jsonName key = .ok name ∧
      jsonForm around value = .ok first ∧ entryForms around rest = .ok others ∧
        (Json.units name, first) :: others = forms := by
  simp only [entryForms, bind_eq_ok, pure, Except.pure, Except.ok.injEq, exists_and_left]

mutual

def isNumeric : Value → Bool
  | .float value => value.isFinite
  | .list items => areNumeric items
  | .map entries => entriesAreNumeric entries
  | .pair first second => first.isNumeric && second.isNumeric
  | .knot _ collection => collection.isNumeric
  | _ => true

def areNumeric : List Value → Bool
  | [] => true
  | item :: rest => item.isNumeric && areNumeric rest

def entriesAreNumeric : List (Value × Value) → Bool
  | [] => true
  | (_, value) :: rest => value.isNumeric && entriesAreNumeric rest

end

mutual

/-- A printed value is JSON exactly if its numbers are. -/
theorem isStrict_jsonForm (around : List Nat) (value : Value) {form : Json}
    (printed : jsonForm around value = .ok form) : form.isStrict = value.isNumeric := by
  cases value with
  | null | bool | text => cases printed; rfl
  | date | moment | bytes | set | again => cases printed
  | float value => cases printed; exact value.isNumber_textWith
  | int value =>
    obtain ⟨-, rfl⟩ := jsonForm_int.mp printed
    exact Json.isNumber_int value
  | list items =>
    obtain ⟨forms, all, rfl⟩ := jsonForm_list.mp printed
    exact areStrict_itemForms around items all
  | pair first second =>
    obtain ⟨one, two, left, right, rfl⟩ := jsonForm_pair.mp printed
    rw [Json.isStrict, Json.areStrict, Json.areStrict, Json.areStrict, Bool.and_true,
      isStrict_jsonForm around first left, isStrict_jsonForm around second right, isNumeric]
  | map entries =>
    obtain ⟨forms, all, rfl⟩ := jsonForm_map.mp printed
    exact membersAreStrict_entryForms around entries all
  | knot mark collection =>
    rw [jsonForm] at printed
    split at printed
    · cases printed
    · exact isStrict_jsonForm (mark :: around) collection printed

theorem areStrict_itemForms (around : List Nat) (items : List Value) {forms : List Json}
    (printed : itemForms around items = .ok forms) : Json.areStrict forms = areNumeric items := by
  cases items with
  | nil => cases printed; rfl
  | cons item rest =>
    obtain ⟨first, others, own, later, rfl⟩ := itemForms_cons.mp printed
    rw [Json.areStrict, areNumeric, isStrict_jsonForm around item own, areStrict_itemForms around rest later]

theorem membersAreStrict_entryForms (around : List Nat) (entries : List (Value × Value))
    {forms : List (List UInt16 × Json)} (printed : entryForms around entries = .ok forms) :
    Json.membersAreStrict forms = entriesAreNumeric entries := by
  cases entries with
  | nil => cases printed; rfl
  | cons entry rest =>
    obtain ⟨name, first, others, -, own, later, rfl⟩ := entryForms_cons.mp printed
    rw [Json.membersAreStrict, entriesAreNumeric, isStrict_jsonForm around entry.2 own,
      membersAreStrict_entryForms around rest later]

end

/-- What is printed reads as what it was printed for, unless one of its numbers is none. -/
theorem read_jsonForm {value : Value} {form : Json} (printed : jsonForm [] value = .ok form) (layout : Layout) :
    Json.read (form.text layout 0 ++ "\n") = some form ↔ value.isNumeric = true := by
  rw [Json.read_text_iff, isStrict_jsonForm [] value printed]

end Value

mutual

/-- JSON data stands for exactly a value: numbers as they are written, items in order, and entries under their names. -/
inductive Json.Encodes : Json → Value → Prop where
  | null : Encodes .null .null
  | bool (value : Bool) : Encodes (.bool value) (.bool value)
  | int (value : Int) : Encodes (.number (toString value).toList) (.int value)
  | float {value : Double} (finite : value.isFinite = true) :
      Encodes (.number (value.textWith "NaN" "Infinity").toList) (.float value)
  | text (value : String) : Encodes (.string (units value)) (.text value)
  | list {forms : List Json} {items : List Value} (all : EncodeItems forms items) : Encodes (.array forms) (.list items)
  | pair {one two : Json} {first second : Value} (left : Encodes one first) (right : Encodes two second) :
      Encodes (.array [one, two]) (.pair first second)
  | map {forms : List (List UInt16 × Json)} {entries : List (Value × Value)} (all : EncodeEntries forms entries) :
      Encodes (.object forms) (.map entries)

inductive Json.EncodeItems : List Json → List Value → Prop where
  | nil : EncodeItems [] []
  | cons {form : Json} {forms : List Json} {item : Value} {rest : List Value} (own : Encodes form item)
      (later : EncodeItems forms rest) : EncodeItems (form :: forms) (item :: rest)

inductive Json.EncodeEntries : List (List UInt16 × Json) → List (Value × Value) → Prop where
  | nil : EncodeEntries [] []
  | cons {form : Json} {forms : List (List UInt16 × Json)} {name : String} {value : Value} {rest : List (Value × Value)}
      (own : Encodes form value) (later : EncodeEntries forms rest) :
      EncodeEntries ((units name, form) :: forms) ((.text name, value) :: rest)

end

namespace Value

mutual

/-- Data that JSON can say: of the sorts that it knows, with texts for keys, and with numbers that are finite and can be
written. -/
def isPlain : Value → Bool
  | .null | .bool _ | .text _ => true
  | .int value => Text.isWritable value
  | .float value => value.isFinite
  | .list items => arePlain items
  | .pair first second => first.isPlain && second.isPlain
  | .map entries => entriesArePlain entries
  | _ => false

def arePlain : List Value → Bool
  | [] => true
  | item :: rest => item.isPlain && arePlain rest

def entriesArePlain : List (Value × Value) → Bool
  | [] => true
  | (.text _, value) :: rest => value.isPlain && entriesArePlain rest
  | _ :: _ => false

end

mutual

/-- Plain data is printed, as JSON data that stands for it. -/
theorem encodes_of_isPlain (around : List Nat) (value : Value) (plain : value.isPlain = true) :
    ∃ form, jsonForm around value = .ok form ∧ form.Encodes value := by
  cases value with
  | null => exact ⟨_, rfl, .null⟩
  | bool value => exact ⟨_, rfl, .bool value⟩
  | text value => exact ⟨_, rfl, .text value⟩
  | int value => exact ⟨_, jsonForm_int.mpr ⟨plain, rfl⟩, .int value⟩
  | float value => exact ⟨_, rfl, .float plain⟩
  | date | moment | bytes | set | knot | again => cases plain
  | list items =>
    obtain ⟨forms, printed, encodes⟩ := encodeItems_of_arePlain around items plain
    exact ⟨_, jsonForm_list.mpr ⟨forms, printed, rfl⟩, .list encodes⟩
  | pair first second =>
    rw [isPlain, Bool.and_eq_true] at plain
    obtain ⟨one, left, encodesOne⟩ := encodes_of_isPlain around first plain.1
    obtain ⟨two, right, encodesTwo⟩ := encodes_of_isPlain around second plain.2
    exact ⟨_, jsonForm_pair.mpr ⟨one, two, left, right, rfl⟩, .pair encodesOne encodesTwo⟩
  | map entries =>
    obtain ⟨forms, printed, encodes⟩ := encodeEntries_of_entriesArePlain around entries plain
    exact ⟨_, jsonForm_map.mpr ⟨forms, printed, rfl⟩, .map encodes⟩

theorem encodeItems_of_arePlain (around : List Nat) (items : List Value) (plain : arePlain items = true) :
    ∃ forms, itemForms around items = .ok forms ∧ Json.EncodeItems forms items := by
  cases items with
  | nil => exact ⟨_, rfl, .nil⟩
  | cons item rest =>
    rw [arePlain, Bool.and_eq_true] at plain
    obtain ⟨first, own, encodes⟩ := encodes_of_isPlain around item plain.1
    obtain ⟨others, later, more⟩ := encodeItems_of_arePlain around rest plain.2
    exact ⟨_, itemForms_cons.mpr ⟨first, others, own, later, rfl⟩, .cons encodes more⟩

theorem encodeEntries_of_entriesArePlain (around : List Nat) (entries : List (Value × Value))
    (plain : entriesArePlain entries = true) :
    ∃ forms, entryForms around entries = .ok forms ∧ Json.EncodeEntries forms entries := by
  cases entries with
  | nil => exact ⟨_, rfl, .nil⟩
  | cons entry rest =>
    obtain ⟨key, value⟩ := entry
    cases key with
    | text name =>
      rw [entriesArePlain, Bool.and_eq_true] at plain
      obtain ⟨first, own, encodes⟩ := encodes_of_isPlain around value plain.1
      obtain ⟨others, later, more⟩ := encodeEntries_of_entriesArePlain around rest plain.2
      exact ⟨_, entryForms_cons.mpr ⟨name, first, others, rfl, own, later, rfl⟩, .cons encodes more⟩
    | _ => cases plain

end

mutual

/-- Data is plain if it is printed at all and any JSON data stands for it. -/
theorem isPlain_of_encodes (around : List Nat) (value : Value) {form printed : Json} (encodes : form.Encodes value)
    (own : jsonForm around value = .ok printed) : value.isPlain = true := by
  cases encodes with
  | null | bool | text => rfl
  | int value => exact (jsonForm_int.mp own).1
  | float finite => exact finite
  | list all =>
    obtain ⟨forms, own, -⟩ := jsonForm_list.mp own
    exact arePlain_of_encodes around _ all own
  | pair left right =>
    obtain ⟨one, two, first, second, -⟩ := jsonForm_pair.mp own
    rw [isPlain, isPlain_of_encodes around _ left first, isPlain_of_encodes around _ right second]
    rfl
  | map all =>
    obtain ⟨forms, own, -⟩ := jsonForm_map.mp own
    exact entriesArePlain_of_encodes around _ all own

theorem arePlain_of_encodes (around : List Nat) (items : List Value) {forms printed : List Json}
    (encodes : Json.EncodeItems forms items) (own : itemForms around items = .ok printed) : arePlain items = true := by
  cases encodes with
  | nil => rfl
  | cons first later =>
    obtain ⟨_, _, one, more, -⟩ := itemForms_cons.mp own
    rw [arePlain, isPlain_of_encodes around _ first one, arePlain_of_encodes around _ later more]
    rfl

theorem entriesArePlain_of_encodes (around : List Nat) (entries : List (Value × Value))
    {forms printed : List (List UInt16 × Json)} (encodes : Json.EncodeEntries forms entries)
    (own : entryForms around entries = .ok printed) : entriesArePlain entries = true := by
  cases encodes with
  | nil => rfl
  | cons first later =>
    obtain ⟨_, _, _, -, one, more, -⟩ := entryForms_cons.mp own
    rw [entriesArePlain, isPlain_of_encodes around _ first one, entriesArePlain_of_encodes around _ later more]
    rfl

end

mutual

/-- All numbers of plain data can be written, and are numbers of JSON. -/
theorem numbers_of_isPlain (value : Value) (plain : value.isPlain = true) :
    value.isWritable = true ∧ value.isNumeric = true := by
  cases value with
  | null | bool | text => exact ⟨rfl, rfl⟩
  | int => exact ⟨plain, rfl⟩
  | float => exact ⟨rfl, plain⟩
  | date | moment | bytes | set | knot | again => cases plain
  | list items => exact numbers_of_arePlain items plain
  | pair first second =>
    rw [isPlain, Bool.and_eq_true] at plain
    have left := numbers_of_isPlain first plain.1
    have right := numbers_of_isPlain second plain.2
    simp [isWritable, isNumeric, left, right]
  | map entries => exact numbers_of_entriesArePlain entries plain

theorem numbers_of_arePlain (items : List Value) (plain : arePlain items = true) :
    areWritable items = true ∧ areNumeric items = true := by
  cases items with
  | nil => exact ⟨rfl, rfl⟩
  | cons item rest =>
    rw [arePlain, Bool.and_eq_true] at plain
    have own := numbers_of_isPlain item plain.1
    have later := numbers_of_arePlain rest plain.2
    simp [areWritable, areNumeric, own, later]

theorem numbers_of_entriesArePlain (entries : List (Value × Value)) (plain : entriesArePlain entries = true) :
    entriesAreWritable entries = true ∧ entriesAreNumeric entries = true := by
  cases entries with
  | nil => exact ⟨rfl, rfl⟩
  | cons entry rest =>
    obtain ⟨key, value⟩ := entry
    cases key with
    | text name =>
      rw [entriesArePlain, Bool.and_eq_true] at plain
      have own := numbers_of_isPlain value plain.1
      have later := numbers_of_entriesArePlain rest plain.2
      simp [entriesAreWritable, entriesAreNumeric, isWritable, own, later]
    | _ => cases plain

end

end Value

end Schemata
