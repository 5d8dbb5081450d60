import Schemata.Proofs.CheckedDefinitions
import Schemata.Proofs.ClosedProperties
import Schemata.Proofs.LoadedDocuments

/-! Definitions that are written out and read again. A check restores what it lets through: that meets some condition, and
all that meets the condition is read from its written form. The checks of single parts do so, and so do those that are made
of them. So every definition that was ever read is read again from its own data, alone or in a document. -/

namespace Schemata

namespace Value

def IsReference : Value → Prop
  | .text _ | .list _ => True
  | _ => False

def keyed (record : Record Value) : List (Value × Value) := record.map fun (name, value) => (.text name, value)

theorem entries?_record (record : Record Value) : (Value.record record).entries? = some (keyed record) := rfl

theorem find?_keyed (record : Record Value) (name : String) : find? (keyed record) name = Record.find? record name := by
  induction record with
  | nil => rfl
  | cons head rest ih =>
    obtain ⟨key, value⟩ := head
    simp only [keyed, List.map_cons, find?, isText, Record.find?, List.lookup_cons] at ih ⊢
    by_cases same : name = key
    · simp [same]
    · simp only [decide_eq_true_eq, Ne.symm same, if_false, ih, beq_false_of_ne same]

end Value

namespace Check

variable {α : Type} {check : List Step → Value → Checked α} {write : α → Value} {sound : α → Prop} {place : List Step}

/-- A check lets through only what is sound, and reads all that is sound from its written form, wherever that stands. -/
structure Restores (check : List Step → Value → Checked α) (write : α → Value) (sound : α → Prop) : Prop where
  sound_of_ok : ∀ {place value part}, check place value = .ok part → sound part
  check_write : ∀ {part}, sound part → ∀ place, check place (write part) = .ok part

theorem restores_text : Restores text .text fun _ => True :=
  ⟨fun _ => trivial, fun _ _ => rfl⟩

theorem restores_reference : Restores reference id Value.IsReference where
  sound_of_ok := by
    intro place value part checked
    unfold reference at checked
    split at checked
    next => cases checked; trivial
    next => cases checked; trivial
    next => cases checked
  check_write := by
    intro part own place
    cases part with
    | text | list => rfl
    | _ => exact own.elim

theorem each_write (restores : Restores check write sound) {parts : List α} (own : ∀ part ∈ parts, sound part)
    (place : List Step) : Checked.each check place (parts.map write) = .ok parts := by
  -- The index only tells the places of findings, and there are none.
  suffices later : ∀ index, Checked.each.go check place index (parts.map write) = .ok parts from later 0
  induction parts with
  | nil => exact fun _ => rfl
  | cons part rest ih =>
    intro index
    obtain ⟨first, others⟩ := List.forall_mem_cons.mp own
    simp only [List.map_cons, Checked.each.go, restores.check_write first, ih others]
    rfl

theorem Restores.listOf (restores : Restores check write sound) :
    Restores (listOf check) (fun parts => .list (parts.map write)) fun parts => ∀ part ∈ parts, sound part where
  sound_of_ok := by
    intro place value parts checked
    unfold Check.listOf at checked
    split at checked
    next =>
      refine forall_of_forall₂ (Checked.of_each checked) fun item part read => ?_
      obtain ⟨inside, read⟩ := read
      exact restores.sound_of_ok read
    next => cases checked
  check_write own place := each_write restores own place

theorem Restores.someOf (restores : Restores check write sound) :
    Restores (someOf check) (fun parts => .list (parts.map write))
      fun parts => parts ≠ [] ∧ ∀ part ∈ parts, sound part where
  sound_of_ok := by
    intro place value parts checked
    refine ⟨ne_nil_of_someOf checked, ?_⟩
    unfold Check.someOf at checked
    split at checked
    next => cases checked
    next => exact restores.listOf.sound_of_ok checked
  check_write := by
    intro parts own place
    have listed := restores.listOf.check_write own.2 place
    unfold Check.someOf
    rw [listed]
    cases parts with
    | nil => exact absurd rfl own.1
    | cons => rfl

/-- A written form that is not null is read the same where null may stand too. -/
theorem Restores.optional (restores : Restores check write sound) (given : ∀ part, sound part → write part ≠ .null) :
    Restores (optional check) (.ofOption write) fun part? => ∀ part ∈ part?, sound part where
  sound_of_ok := by
    intro place value part? checked part inside
    unfold Check.optional at checked
    split at checked
    next => cases checked; cases inside
    next =>
      cases read : check place value with
      | error => rw [read] at checked; cases checked
      | ok other =>
        rw [read] at checked
        cases checked
        cases inside
        exact restores.sound_of_ok read
  check_write := by
    intro part? own place
    cases part? with
    | none => rfl
    | some part =>
      calc Check.optional check place (write part) = (check place (write part)).map some := by
            unfold Check.optional
            split
            next null => exact absurd null (given part (own part rfl))
            next => rfl
        _ = .ok (some part) := by rw [restores.check_write (own part rfl)]; rfl

theorem entries_keyed (record : Record Value) (place : List Step) : entries place (Value.keyed record) = .ok record := by
  induction record with
  | nil => rfl
  | cons head rest ih =>
    simp only [Value.keyed, List.map_cons, entries] at ih ⊢
    rw [ih]
    rfl

theorem restores_mapping : Restores mapping .record fun record => (Record.names record).Nodup where
  sound_of_ok := by
    intro place value record checked
    unfold mapping at checked
    split at checked
    next members _ =>
      cases read : entries place members with
      | error => rw [read] at checked; cases checked
      | ok given =>
        rw [read] at checked
        cases checked
        exact Record.names_ofList_nodup given
    next => cases checked
  check_write := by
    intro record distinct place
    calc mapping place (.record record) = (entries place (Value.keyed record)).map Record.ofList := rfl
      _ = .ok (Record.ofList record) := by rw [entries_keyed]; rfl
      _ = .ok record := by rw [Record.ofList_of_nodup distinct]

/-- Members are written as a list, so that there is no mapping to expand. -/
theorem Restores.members (restores : Restores check write sound) :
    Restores (members check) (fun parts => .list (parts.map write)) fun parts => ∀ part ∈ parts, sound part where
  sound_of_ok checked := restores.listOf.sound_of_ok checked
  check_write own place := restores.listOf.check_write own place

theorem Restores.sound_of_required (restores : Restores check write sound) {data : List (Value × Value)} {name : String}
    {part : α} (checked : required check place data name = .ok part) : sound part := by
  obtain ⟨_, -, read⟩ := required_eq_ok checked
  exact restores.sound_of_ok read

theorem Restores.sound_of_defaulted (restores : Restores check write sound) {data : List (Value × Value)} {name : String}
    {fallback part : α} (checked : defaulted check fallback place data name = .ok part) (own : sound fallback) :
    sound part := by
  unfold defaulted at checked
  split at checked
  next => exact restores.sound_of_ok checked
  next => cases checked; exact own

section Written

variable {record : Record Value} {name : String} {part : α}

theorem Restores.required (restores : Restores check write sound) (own : sound part)
    (found : Record.find? record name = some (write part)) :
    required check place (Value.keyed record) name = .ok part := by
  simp only [Check.required, Value.find?_keyed, found, restores.check_write own]

theorem Restores.defaulted (restores : Restores check write sound) (own : sound part) (fallback : α)
    (found : Record.find? record name = some (write part)) :
    defaulted check fallback place (Value.keyed record) name = .ok part := by
  simp only [Check.defaulted, Value.find?_keyed, found, restores.check_write own]

end Written

private theorem restores_note : Restores (optional text) (.ofOption .text) fun note? => ∀ note ∈ note?, True :=
  restores_text.optional nofun

private theorem restores_valueType :
    Restores (optional reference) (.ofOption id) fun type? => ∀ type ∈ type?, type.IsReference := by
  refine restores_reference.optional ?_
  rintro type own rfl
  exact own

theorem restores_field : Restores field (fun field => .record field.toRecord) (·.type.IsReference) where
  sound_of_ok checked := by
    obtain ⟨_, -, -, type, -⟩ := field_eq_ok.mp checked
    exact restores_reference.sound_of_required type
  check_write := by
    intro field own place
    refine field_eq_ok.mpr ⟨_, Value.entries?_record _, restores_text.required trivial rfl,
      restores_reference.required own rfl, ?_, ?_, ?_⟩
    · exact restores_note.defaulted (fun _ _ => trivial) _ rfl
    · exact restores_note.defaulted (fun _ _ => trivial) _ rfl
    · exact (restores_text.listOf.optional nofun).defaulted (fun _ _ _ _ => trivial) _ rfl

theorem restores_parameter :
    Restores parameter (fun parameter => .record parameter.toRecord) (·.type.IsReference) where
  sound_of_ok checked := by
    obtain ⟨_, -, -, type, -⟩ := parameter_eq_ok.mp checked
    exact restores_reference.sound_of_required type
  check_write := by
    intro parameter own place
    refine parameter_eq_ok.mpr ⟨_, Value.entries?_record _, restores_text.required trivial rfl,
      restores_reference.required own rfl, ?_⟩
    exact restores_note.defaulted (fun _ _ => trivial) _ rfl

end Check

namespace Definition

/-- What definitions that are read have in common: their references are texts or lists, fragments and examples have no
name twice, and there are values and alternatives. -/
def IsReadable : Definition → Prop
  | .scalar _ fragment => (Record.names fragment).Nodup
  | .product _ fields .. => ∀ field ∈ fields, field.type.IsReference
  | .sum _ values => values ≠ []
  | .map _ valueType sample => (∀ type ∈ valueType, type.IsReference) ∧ (Record.names sample).Nodup
  | .union _ alternatives => alternatives ≠ [] ∧ ∀ type ∈ alternatives, type.IsReference
  | .input _ parameters => ∀ parameter ∈ parameters, parameter.type.IsReference

end Definition

namespace Check

variable {definition : Definition} {data : List (Value × Value)}

theorem isReadable_of_states (stated : States place data definition) : definition.IsReadable := by
  cases definition with
  | scalar name fragment =>
    obtain ⟨-, fragment⟩ := stated
    exact restores_mapping.sound_of_required fragment
  | product name fields title description contentType =>
    obtain ⟨-, fields, -⟩ := stated
    exact restores_field.members.sound_of_defaulted fields nofun
  | sum name values =>
    obtain ⟨-, values⟩ := stated
    exact (restores_text.someOf.sound_of_required values).1
  | map name valueType sample =>
    obtain ⟨-, valueType, sample⟩ := stated
    exact ⟨restores_valueType.sound_of_defaulted valueType nofun,
      restores_mapping.sound_of_defaulted sample List.nodup_nil⟩
  | union name alternatives =>
    obtain ⟨-, alternatives⟩ := stated
    exact restores_reference.someOf.sound_of_required alternatives
  | input name parameters =>
    obtain ⟨-, parameters⟩ := stated
    exact restores_parameter.members.sound_of_defaulted parameters nofun

theorem states_toRecord (readable : definition.IsReadable) (place : List Step) :
    States place (Value.keyed definition.toRecord) definition := by
  have named : Check.required text place (Value.keyed definition.toRecord) "name" = .ok definition.name :=
    restores_text.required trivial rfl
  cases definition with
  | scalar name fragment => exact ⟨named, restores_mapping.required readable rfl⟩
  | product name fields title description contentType =>
    refine ⟨named, restores_field.members.defaulted readable _ rfl, ?_, ?_, restores_text.defaulted trivial _ rfl⟩
    · exact restores_note.defaulted (fun _ _ => trivial) _ rfl
    · exact restores_note.defaulted (fun _ _ => trivial) _ rfl
  | sum name values => exact ⟨named, restores_text.someOf.required ⟨readable, fun _ _ => trivial⟩ rfl⟩
  | map name valueType sample =>
    refine ⟨named, restores_valueType.defaulted readable.1 _ ?_, restores_mapping.defaulted readable.2 _ rfl⟩
    -- A type that is not given is written as null.
    cases valueType <;> rfl
  | union name alternatives =>
    refine ⟨named, restores_reference.someOf.required readable ?_⟩
    -- References are written as they are.
    rw [List.map_id]
    rfl
  | input name parameters => exact ⟨named, restores_parameter.members.defaulted readable _ rfl⟩

end Check

namespace Definition

theorem isReadable_of_check {value : Value} {definition : Definition} (checked : check value = .ok definition) :
    definition.IsReadable := by
  obtain ⟨_, -, -, stated⟩ := check_eq_ok.mp checked
  exact Check.isReadable_of_states stated

theorem check_toValue {definition : Definition} (readable : definition.IsReadable) :
    check definition.toValue = .ok definition :=
  check_eq_ok.mpr ⟨_, Value.entries?_record _, rfl, Check.states_toRecord readable _⟩

end Definition

namespace Document

/-- A type of a document, written out: its identifier, which is null if it has none of its own, and all attributes of its
definition. -/
def writtenType (listing : Option String × Definition) : Value :=
  .record (("identifier", .ofOption .text listing.1) :: listing.2.toRecord)

def written (listed : List (Option String × Definition)) : Value :=
  .record [("types", .list (listed.map writtenType))]

def DescribeAll (types : List Value) (listed : List (Option String × Definition)) : Prop :=
  List.Forall₂ (fun value listing => Describes value listing.1 listing.2) types listed

theorem without_identifier (definition : Definition) (identifier? : Option String) :
    Value.map (Value.without (Value.keyed (("identifier", .ofOption .text identifier?) :: definition.toRecord))
      "identifier") = definition.toValue := by
  cases definition <;> rfl

theorem Describes.writtenType {value : Value} {identifier? : Option String} {definition : Definition}
    (describes : Describes value identifier? definition) :
    Describes (writtenType (identifier?, definition)) identifier? definition := by
  obtain ⟨_, -, -, checked⟩ := describes
  refine ⟨_, Value.entries?_record _, ?_, ?_⟩
  · cases identifier? with
    | none => exact .null rfl
    | some identifier => exact .text rfl
  · rw [without_identifier]
    exact Definition.check_toValue (Definition.isReadable_of_check checked)

theorem Describes.entry {value : Value} {identifier? : Option String} {definition : Definition}
    (describes : Describes value identifier? definition) (label : String) (index : Nat) :
    entry label index value = .ok (identifier?, definition) := by
  obtain ⟨data, mapping, identifies, checked⟩ := describes
  rw [entry_of_identifies mapping identifies, checked]
  rfl

/-- Types that are written out are registered the same, with the same failure if there is one. -/
theorem DescribeAll.register {types : List Value} {listed : List (Option String × Definition)}
    (all : DescribeAll types listed) (label : String) (index : Nat) (catalog : Catalog) :
    register label index catalog (listed.map writtenType) = register label index catalog types := by
  induction all generalizing index catalog with
  | nil => rfl
  | @cons value listing types listed describes _ ih =>
    simp only [List.map_cons, Document.register, describes.entry, describes.writtenType.entry, ih]

theorem describeAll_of_register {label : String} {index : Nat} {catalog extended : Catalog} {types : List Value}
    (registered : register label index catalog types = .ok extended) : ∃ listed, DescribeAll types listed := by
  induction types generalizing index catalog with
  | nil => exact ⟨[], .nil⟩
  | cons value rest ih =>
    rcases entry_cases label index [] value with ⟨identifier?, definition, describes, read⟩ | ⟨error, -, refused⟩
    · simp only [Document.register, read, bind, Except.bind] at registered
      split at registered
      next => cases registered
      next =>
        obtain ⟨listed, all⟩ := ih registered
        exact ⟨(identifier?, definition) :: listed, .cons describes all⟩
    · simp only [Document.register, refused, bind, Except.bind] at registered
      cases registered

end Document

namespace Definition

/-- The definitions that are read from data are exactly the readable ones. Whatever data one was read from, with members as
a mapping or as a list, parts left out or null, and keys that mean nothing, it is read again from its own data, which are
then the same, and so compiles to the same. Written out type by type, a document that was loaded is loaded to the same
catalog, so that everything compiled over it is the same as well. -/
theorem written_definitions_read_again :
    (∀ definition, (∃ value, check value = .ok definition) ↔ definition.IsReadable) ∧
    (∀ value definition, check value = .ok definition →
      check definition.toValue = .ok definition ∧
      ∀ again, check definition.toValue = .ok again → again.toValue = definition.toValue ∧
        ∀ (compiler : Compiler) (mode : Mode),
          compiler.compile (.entry (.checked again)) mode = compiler.compile (.entry (.checked definition)) mode) ∧
    ∀ label document catalog, Document.catalogOf label document = .ok catalog → ∃ types listed,
      Document.Types document types ∧ Document.DescribeAll types listed ∧
        Document.catalogOf label (Document.written listed) = .ok catalog := by
  refine ⟨fun definition => ?_, ?_, ?_⟩
  · constructor
    · intro read
      obtain ⟨value, checked⟩ := read
      exact isReadable_of_check checked
    · exact fun readable => ⟨definition.toValue, check_toValue readable⟩
  · intro value definition checked
    have restored : check definition.toValue = .ok definition := check_toValue (isReadable_of_check checked)
    refine ⟨restored, fun again read => ?_⟩
    cases restored.symm.trans read
    exact ⟨rfl, fun _ _ => rfl⟩
  · intro label document catalog loaded
    obtain ⟨types, lists⟩ := Document.exists_types_of_catalogOf loaded
    rw [Document.catalogOf_eq lists] at loaded
    obtain ⟨listed, all⟩ := Document.describeAll_of_register loaded
    have written : Document.Types (Document.written listed) (listed.map Document.writtenType) := ⟨_, _, rfl, rfl, rfl⟩
    refine ⟨types, listed, lists, all, ?_⟩
    rw [Document.catalogOf_eq written, all.register, loaded]

/-- A product with a mapping of fields, a title that is null and a key that means nothing, alone and in a document. -/
theorem written_definitions_read_again_of_pet :
    let data : List (Value × Value) := [(.text "kind", .text "product"), (.text "name", .text "Pet"), (.text "owner", .int 1),
      (.text "title", .null), (.text "fields", .map [(.text "id", .text "!integer"),
        (.text "tags", .map [(.text "type", .list [.text "string"]), (.text "enum", .null)])])]
    let pet : Definition := .product "Pet" [⟨"id", .text "!integer", none, none, none⟩,
      ⟨"tags", .list [.text "string"], none, none, none⟩] none none "application/json"
    let document : Value := .map [(.text "types", .list [.map ((.text "identifier", .text "pet") :: data)])]
    let compiler := Compiler.new .empty .builtins .jsonSchema none
    check (.map data) = .ok pet ∧ pet.toValue ≠ .map data ∧ check pet.toValue = .ok pet ∧
      (∀ again, check pet.toValue = .ok again →
        compiler.compile (.entry (.checked again)) .openApi = compiler.compile (.entry (.checked pet)) .openApi) ∧
      (¬ ∃ value, check value = .ok (.sum "Color" [])) ∧
      ∃ catalog, Document.catalogOf "pets.yaml" document = .ok catalog ∧
        Document.catalogOf "pets.yaml" (Document.written [(some "pet", pet)]) = .ok catalog := by
  intro data pet document compiler
  obtain ⟨image, restored, documents⟩ := written_definitions_read_again
  have checked : check (.map data) = .ok pet := rfl
  obtain ⟨again, same⟩ := restored _ _ checked
  obtain ⟨catalog, loaded⟩ : ∃ catalog, Document.catalogOf "pets.yaml" document = .ok catalog := ⟨_, rfl⟩
  refine ⟨checked, ?_, again, fun other read => (same other read).2 compiler .openApi, ?_, catalog, loaded, ?_⟩
  · simp [data, pet, toValue, toRecord, Value.record]
  · rw [image]
    exact fun readable => readable rfl
  · obtain ⟨types, listed, lists, all, done⟩ := documents _ _ _ loaded
    have own : Document.Describes (.map ((.text "identifier", .text "pet") :: data)) (some "pet") pet :=
      ⟨_, rfl, .text rfl, checked⟩
    obtain ⟨_, _, mapping, found, items⟩ := lists
    cases mapping
    cases found
    cases items
    cases all with
    | @cons _ listing _ _ describes rest =>
      cases rest
      obtain ⟨identifier, definition⟩ := describes.unique own
      rwa [show listing = (some "pet", pet) from Prod.ext identifier definition] at done

end Definition

end Schemata
