import Schemata.Proofs.HoistedMeaning
import Schemata.Proofs.NullableMeaning
import Mathlib

/-! Whether null is admitted by a reference that says so. With a second type null is admitted, unless something else
excludes it: a sum lists its texts, and null is none of them. Without a type null is one more alternative, and exactly
one may admit it: where null was admitted before, it is not admitted any more. -/

namespace Schemata

open Value (asks asksPlainly meets declares)

/-- What a reader makes of null as usual: documentation asks nothing, nor does what is about texts or about lists, and
null is equal to no text. -/
structure Reader.IsStandard (reader : Reader) : Prop where
  lenient : reader.IsLenient
  elsewhere : ∀ name ∈ ["format", "pattern", "items"], ∀ value, reader.asks name value .null = true
  equal : ∀ text, reader.equal (.text text) .null = false

namespace Record

theorem set_of_find? {record : Record α} {name : String} {value : α} (found : find? record name = some value) :
    set record name value = record := by
  induction record with
  | nil => cases found
  | cons head rest ih =>
    obtain ⟨key, held⟩ := head
    simp only [find?, List.lookup_cons] at found ih
    by_cases own : key = name
    · subst own
      simp only [beq_self_eq_true] at found
      cases found
      rw [set, if_pos rfl]
    · have different : (name == key) = false := beq_false_of_ne (Ne.symm own)
      rw [different] at found
      rw [set, if_neg own, ih found]

/-- Of the values given under one name the last is kept. -/
theorem find?_ofList {before after : List (String × α)} {name : String} {value : α}
    (last : name ∉ names after) : find? (ofList (before ++ (name, value) :: after)) name = some value := by
  induction after using List.reverseRecOn with
  | nil => rw [ofList_concat, find?_set, if_pos rfl]
  | append_singleton after entry ih =>
    obtain ⟨other, held⟩ := entry
    simp only [names_append, List.mem_append, not_or] at last
    have different : name ≠ other := by simpa [names] using last.2
    rw [← List.cons_append, ← List.append_assoc, ofList_concat, find?_set, if_neg different, ih last.1]

end Record

namespace Schema

variable {reader : Reader} {refers : Value → Value → Bool}

/-- What has another type does not admit null, and does once it is widened. -/
theorem admits_null_typed {kind : String} {rest : Parts} {schema : Schema} (other : kind ≠ "null")
    (free : ∀ declared, meets reader refers declared (entries rest) .null = true)
    (done : (keywords (("type", .data (.text kind)) :: rest)).nullable? false = .ok schema) :
    schema.toValue.admits reader refers .null = true := by
  have rejected : (keywords (("type", .data (.text kind)) :: rest)).toValue.admits reader refers .null = false := by
    rw [toValue, Value.admits, entries, meets, show Keyword.of "type" = .plain from rfl, asks_plain]
    rw [show asksPlainly reader refers "type" (partValue (.data (.text kind))) .null = Value.hasType kind .null from rfl]
    rw [Value.hasType_of_null other, Bool.false_and]
  rw [admits_nullable_typed other free done, rejected]
  rfl

theorem admits_null_object (standard : reader.IsStandard) {rest : Parts} {schema : Schema}
    (object : ∀ entry ∈ rest, OfObject entry)
    (done : (keywords (("type", .data (.text "object")) :: rest)).nullable? false = .ok schema) :
    schema.toValue.admits reader refers .null = true :=
  admits_null_typed (by decide) (meets_ofObject standard.lenient object) done

theorem admits_null_array (standard : reader.IsStandard) {items schema : Schema}
    (done : (array items).nullable? false = .ok schema) : schema.toValue.admits reader refers .null = true := by
  refine admits_null_typed (by decide) (fun declared => meets_of_each ?_) done
  intro entry member
  cases List.mem_singleton.mp member
  have elsewhere := standard.elsewhere "items" (by simp)
  cases value : items.toValue <;> simp only [partValue, value, Keyword.of, asks, Value.eachItem] <;> exact elsewhere _

/-- A primitive that is there from the start admits null with its type. -/
theorem admits_null_primitive (standard : reader.IsStandard) {name : String} {fragment : Value} {schema : Schema}
    (member : (name, fragment) ∈ Registry.builtins.fragments) (done : (ofValue fragment).nullable? false = .ok schema) :
    schema.toValue.admits reader refers .null = true := by
  obtain ⟨kind, rest, rfl, other, texts⟩ := Registry.builtins_typed member
  rw [ofValue_record] at done
  refine admits_null_typed other (fun declared => meets_of_each ?_) done
  intro entry inside
  obtain ⟨⟨label, value⟩, own, rfl⟩ := List.mem_map.mp inside
  have known := texts _ own
  have free := standard.elsewhere label (List.mem_append_left ["items"] known) value
  simp only [List.mem_cons, List.not_mem_nil, or_false] at known
  rcases known with rfl | rfl
  all_goals
    rw [show Keyword.of _ = .plain from rfl, asks_plain]
    cases value <;> exact free

/-- Texts stay the only values. -/
theorem rejects_null_choice (standard : reader.IsStandard) {values : List String} {schema : Schema}
    (done : (choice (.texts values)).nullable? false = .ok schema) : schema.toValue.admits reader refers .null = false := by
  obtain rfl : schema =
      keywords [("type", .data (.list [.text "string", .text "null"])), ("enum", .data (.texts values))] := by
    cases done
    rfl
  have noText : asksPlainly reader refers "enum" (.texts values) .null = false := by
    rw [Value.texts, asksPlainly, List.any_eq_false]
    rintro value member
    obtain ⟨text, -, rfl⟩ := List.mem_map.mp member
    rw [standard.equal text]
    exact Bool.false_ne_true
  simp only [toValue, Value.admits, entries, meets, show Keyword.of "enum" = .plain from rfl, asks_plain, partValue, noText,
    Bool.false_and, Bool.and_false]

def opened (parts : Parts) : Schema := keywords (Record.set parts "oneOf" (.schemas [keywords []]))

private theorem meets_set_pass {declared : String → Bool} {name : String} {part free : Part Schema} {document : Value}
    (pass : asks reader refers declared (Keyword.of name) name (partValue free) document = true) (parts : Parts) :
    meets reader refers declared (entries (Record.set parts name part)) document =
      (asks reader refers declared (Keyword.of name) name (partValue part) document &&
        meets reader refers declared (entries (Record.set parts name free)) document) := by
  induction parts with
  | nil => simp only [Record.set, entries, meets, pass, Bool.true_and]
  | cons head rest ih =>
    obtain ⟨key, held⟩ := head
    simp only [Record.set]
    split
    next same =>
      subst same
      rw [entries, entries, meets, meets, pass, Bool.true_and]
    next => rw [entries, entries, meets, meets, ih, Bool.and_left_comm]

/-- Alternatives ask that exactly one admits the document, and the other keywords ask the same whatever they are. -/
theorem admits_set_oneOf {part : Part Schema} {items : List Value} (listed : partValue part = .list items) (parts : Parts)
    (document : Value) : (keywords (Record.set parts "oneOf" part)).toValue.admits reader refers document =
      ((items.map fun item => item.admits reader refers document).count true == 1 &&
        (opened parts).toValue.admits reader refers document) := by
  have apart : "oneOf" ∉ ["properties", "patternProperties"] := by simp
  have pass : asks reader refers (declares reader (entries parts)) (Keyword.of "oneOf") "oneOf"
      (partValue (.schemas [keywords []])) document = true := rfl
  rw [opened, toValue, toValue, Value.admits, Value.admits, declares_set apart, declares_set apart, meets_set_pass pass,
    listed, show Keyword.of "oneOf" = .oneOf from rfl, asks, Value.verdicts_eq_map]

/-- Among alternatives a document is admitted with one of them. -/
theorem exists_alternative {parts : Parts} {part : Part Schema} {items : List Value} {document : Value}
    (found : Record.find? parts "oneOf" = some part) (listed : partValue part = .list items)
    (admitted : (keywords parts).toValue.admits reader refers document = true) :
    ∃ item ∈ items, item.admits reader refers document = true := by
  rw [← Record.set_of_find? found, admits_set_oneOf listed, Bool.and_eq_true, beq_iff_eq] at admitted
  have some : 0 < (items.map fun item => item.admits reader refers document).count true := by
    rw [admitted.1]
    exact Nat.one_pos
  exact List.mem_map.mp (List.count_pos_iff.mp some)

theorem addNull_of_members?_eq_none {part : Part Schema} (none : (partValue part).members? = none) :
    addNull part = .error .unsuitable := by
  cases part with
  | schemas => cases none
  | data | reference | schema | members => simp only [addNull, none]

theorem admits_null_appended {part : Part Schema} {items : List Value}
    (listed : partValue part = .list (items ++ [null.toValue])) (parts : Parts) :
    (keywords (Record.set parts "oneOf" part)).toValue.admits reader refers .null = true ↔
      (∀ item ∈ items, item.admits reader refers .null = false) ∧
        (opened parts).toValue.admits reader refers .null = true := by
  rw [admits_set_oneOf listed, Bool.and_eq_true, List.map_append, List.map_singleton, admits_null, List.count_append,
    beq_iff_eq]
  refine and_congr_left fun _ => ?_
  rw [show List.count true [Value.null.isNull] = 1 from rfl, Nat.add_eq_right, List.count_eq_zero]
  simp only [List.mem_map, not_exists, not_and, Bool.not_eq_true]

theorem admits_null_alternative (schema : Schema) : (oneOf [schema, null]).toValue.admits reader refers .null = true ↔
    schema.toValue.admits reader refers .null = false := by
  rw [admits_oneOf, List.map_cons, List.map_singleton, admits_null]
  cases schema.toValue.admits reader refers .null <;> decide

end Schema

namespace Catalog

variable (catalog : Catalog) (registry : Registry)

/-- What stands for a reference was registered by nobody: an array, a type with a body, or a primitive that is there from
the start. -/
def IsOwn (spec : TypeSpec) : Prop :=
  ∀ name fragment, spec.name? = some name → catalog.Supplies registry name fragment →
    (name, fragment) ∈ Registry.builtins.fragments

def NamesSum (spec : TypeSpec) : Prop :=
  spec.isArray = false ∧ ∃ label values, catalog.Denotes registry spec (.sum label values)

variable {catalog registry} {spec : TypeSpec} {definition other : Definition}

theorem Denotes.unique (one : catalog.Denotes registry spec definition) (two : catalog.Denotes registry spec other) :
    definition = other :=
  Entry.checked.inj (Classified.entry.inj (Except.ok.inj (one.kind.symm.trans two.kind))).2

/-- A name that stands for a fragment stands for no type with a body. -/
theorem Supplies.unnamed {name : String} {value : Value} (supplies : catalog.Supplies registry name value)
    (same : spec.base = name) (denotes : catalog.Denotes registry spec definition) : definition.kind.isNamed = false := by
  have kind := denotes.kind
  rw [same] at kind
  cases supplies with
  | primitive classified => cases classified.symm.trans kind
  | scalar classified =>
    rw [← (Classified.entry.inj (Except.ok.inj (classified.symm.trans kind))).1]
    rfl

end Catalog

namespace Setting

variable {setting : Setting} {reader : Reader} {refers : Value → Value → Bool} {plain spec : TypeSpec}

theorem Builds.stands {definition : Definition} {stand : Schema} (builds : setting.Builds spec stand)
    (single : spec.isArray = false) (denotes : setting.catalog.Denotes setting.registry spec definition)
    (named : definition.kind.isNamed = true) : setting.Stands definition stand := by
  cases builds with
  | array => cases single
  | fragment supplies =>
    rw [supplies.unnamed rfl denotes] at named
    cases named
  | type denotesToo _ stands => exact denotesToo.unique denotes ▸ stands

/-- What stands for a type has a type of its own only if it is written out and no union. -/
theorem Stands.written_of_typed {definition : Definition} {parts : Schema.Parts}
    (stands : setting.Stands definition (.keywords parts)) (typed : Record.has parts "type" = true) :
    setting.hoisting = false ∧ definition.kind ≠ .union := by
  cases stands with
  | referred => cases typed
  | written inline shown =>
    refine ⟨inline, fun union => ?_⟩
    cases definition with
    | scalar | product | sum | map | input => cases union
    | union name alternatives =>
      obtain ⟨schemas, -, same⟩ := shown
      cases same
      cases typed

/-- Where the plain reference has a schema with a type of its own, null is admitted beside it unless it is a sum. -/
theorem Forms.admits_null_iff (unflagged : setting.dialect.flagged = false) (standard : reader.IsStandard)
    (widens : plain.Widens spec) (own : setting.catalog.IsOwn setting.registry plain) {schema : Schema}
    (forms : setting.Forms spec schema) {parts : Schema.Parts} (plainly : setting.Forms plain (.keywords parts))
    (typed : Record.has parts "type" = true) :
    schema.toValue.admits reader refers .null = true ↔ ¬ setting.catalog.NamesSum setting.registry plain := by
  obtain ⟨stand, builds, done⟩ := forms
  have null : spec.nullable = true := by cases widens <;> rfl
  rw [null, widened, if_pos rfl, unflagged] at done
  cases widens with
  | array element =>
    cases builds with
    | array items =>
      refine iff_of_true (Schema.admits_null_array standard done) ?_
      rintro ⟨impossible, -⟩
      cases impossible
  | named name required requiredToo =>
    cases builds with
    | fragment supplies =>
      refine iff_of_true (Schema.admits_null_primitive standard (own name _ rfl supplies) done) ?_
      rintro ⟨-, label, values, denotes⟩
      cases supplies.unnamed rfl denotes
    | @type _ _ _ definition _ denotes named stands =>
      have denotes : setting.catalog.Denotes setting.registry (.named name required false) definition := denotes
      obtain ⟨before, buildsToo, same⟩ := plainly
      cases same
      obtain ⟨inline, other⟩ := (buildsToo.stands rfl denotes named).written_of_typed typed
      cases stands with
      | referred hoists => exact absurd (inline.symm.trans hoists) Bool.false_ne_true
      | written _ shown =>
        have object (kind : definition.kind = .product ∨ definition.kind = .map) :
            schema.toValue.admits reader refers .null = true ↔
              ¬ setting.catalog.NamesSum setting.registry (.named name required false) := by
          obtain ⟨rest, rfl, inner⟩ := ShowsBody.exists_object_eq kind shown
          refine iff_of_true (Schema.admits_null_object standard inner done) ?_
          rintro ⟨-, label, values, sum⟩
          cases denotes.unique sum
          rcases kind with kind | kind <;> cases kind
        cases definition with
        | scalar | input => cases named
        | union => exact absurd rfl other
        | product => exact object (.inl rfl)
        | map => exact object (.inr rfl)
        | sum label values =>
          cases shown
          refine iff_of_false ?_ fun apart => apart ⟨rfl, label, values, denotes⟩
          rw [Schema.rejects_null_choice standard done]
          exact Bool.false_ne_true

end Setting

/-- A field that a product has under its name: the last one. -/
inductive Definition.Has : Definition → Field → Prop where
  | field {name contentType : String} {title description : Option String} {before after : List Field} {field : Field}
      (last : ∀ other ∈ after, other.name ≠ field.name) :
      Has (.product name (before ++ field :: after) title description contentType) field

def Schema.property? (name : String) : Schema → Option Schema
  | .keywords parts =>
    match Record.find? parts "properties" with
    | some (.members members) => Record.find? members name
    | _ => none
  | .data _ => none

private theorem exists_of_forall₂ {related : α → β → Prop} {front back : List α} {item : α} {all : List β}
    (pairs : List.Forall₂ related (front ++ item :: back) all) :
    ∃ before one after, all = before ++ one :: after ∧ related item one ∧ List.Forall₂ related back after := by
  induction front generalizing all with
  | nil =>
    cases pairs with
    | @cons _ one _ after pair rest => exact ⟨[], one, after, rfl, pair, rest⟩
  | cons head front ih =>
    cases pairs with
    | @cons _ first _ others _ rest =>
      obtain ⟨before, one, after, rfl, own, behind⟩ := ih rest
      exact ⟨first :: before, one, after, rfl, own, behind⟩

/-- A field is shown under its name. -/
theorem Setting.ShowsBody.property {setting : Setting} {shows : TypeSpec → Schema → Prop} {definition : Definition}
    {field : Field} {body : Schema} (has : definition.Has field) (shown : setting.ShowsBody shows definition body) :
    ∃ compiled, setting.ShowsField shows field compiled ∧ body.property? field.name = some compiled.schema := by
  cases has with
  | @field name contentType title description before after _ last =>
    obtain ⟨all, pairs, rfl⟩ := shown
    obtain ⟨front, compiled, back, rfl, own, behind⟩ := exists_of_forall₂ pairs
    have sameName {field : Field} {compiled : CompiledField String} (own : setting.ShowsField shows field compiled) :
        compiled.name = field.name := by
      obtain ⟨spec, schema, described, -, -, -, rfl⟩ := own
      rfl
    refine ⟨compiled, own, ?_⟩
    have names : after.map (·.name) = back.map (·.name) := by
      rw [← List.forall₂_eq_eq_eq, List.forall₂_map_left_iff, List.forall₂_map_right_iff]
      exact behind.imp fun _ _ own => (sameName own).symm
    show Record.find? (Record.ofList ((front ++ compiled :: back).map fun field => (field.name, field.schema))) field.name = _
    rw [List.map_append, List.map_cons, ← sameName own]
    apply Record.find?_ofList
    rw [Record.names, List.map_map, sameName own]
    show field.name ∉ back.map (·.name)
    rw [← names]
    intro member
    obtain ⟨other, inside, same⟩ := List.mem_map.mp member
    exact last other inside same

namespace Compiler

/-- A field of a body that a call writes, with its documentation, admits null as the schema of its type does. -/
theorem WritesBody.field {compiler : Compiler} {mode : Mode} {definition : Definition} {body : Schema} {field : Field}
    {spec : TypeSpec} {reader : Reader} (refers : Value → Value → Bool) (built : compiler.catalog.OfDefinitions)
    (lenient : reader.IsLenient) (writes : compiler.WritesBody mode definition body) (has : definition.Has field)
    (read : TypeSpec.read true field.type = .ok spec) :
    ∃ property schema, body.property? field.name = some property ∧
      (compiler.setting mode).ShowsType (compiler.setting mode).Forms field spec schema ∧
      property.toValue.admits reader refers .null = schema.toValue.admits reader refers .null := by
  have named : definition.kind.isNamed = true := by
    cases has
    rfl
  obtain ⟨compiled, ⟨again, schema, described, readToo, typed, done, rfl⟩, found⟩ :=
    Setting.ShowsBody.property has (writes.shown built named)
  cases read.symm.trans readToo
  exact ⟨described, schema, found, typed, Schema.admits_described lenient done .null⟩

/-- Whether a reference admits null that says so, where the plain one has a schema with a type that the compiler made: it
does unless it is a sum. So it is with fields; a field that lists its values never admits null. -/
theorem nullable_typed_admits_null_iff (compiler : Compiler) (mode : Mode) (reader : Reader)
    (refers : Value → Value → Bool) (built : compiler.catalog.OfDefinitions) (unflagged : mode.isFlagged = false)
    (standard : reader.IsStandard) :
    let catalog := compiler.catalog
    let registry := compiler.registry
    let admitsNull (schema : Schema) : Prop := schema.toValue.admits reader refers .null = true
    (∀ value plain parts, TypeSpec.read false value = .ok plain →
      (compiler.compile (.written value) mode).outcome = .ok (.single (.keywords parts)) →
      Record.has parts "type" = true → catalog.IsOwn registry plain →
      (∀ other spec, TypeSpec.read false other = .ok spec → plain.Widens spec →
        ∃ widened, (compiler.compile (.written other) mode).outcome = .ok (.single widened) ∧
          (admitsNull widened ↔ ¬ catalog.NamesSum registry plain)) ∧
      ∀ definition body field spec, compiler.WritesBody mode definition body → definition.Has field →
        field.override? = none → TypeSpec.read true field.type = .ok spec → plain.Widens spec →
        ∃ property, body.property? field.name = some property ∧
          (admitsNull property ↔ ¬ catalog.NamesSum registry plain)) ∧
    ∀ definition body field choices spec, compiler.WritesBody mode definition body → definition.Has field →
      field.override? = some choices → TypeSpec.read true field.type = .ok spec → spec.nullable = true →
      ∃ property, body.property? field.name = some property ∧ ¬ admitsNull property := by
  intro catalog registry admitsNull
  have flagged : (compiler.dialect mode).flagged = false := unflagged
  constructor
  · intro value plain parts read answered typed own
    have plainly := forms_of_answered built read answered
    constructor
    · intro other spec readToo widens
      obtain ⟨widened, done, -⟩ := Schema.isWidenable_typed typed (compiler.dialect mode).flagged
      have answeredToo := (compile_widened read readToo widens answered done).1
      exact ⟨widened, answeredToo,
        (forms_of_answered built readToo answeredToo).admits_null_iff flagged standard widens own plainly typed⟩
    · intro definition body field spec writes has alone readToo widens
      obtain ⟨property, schema, found, typedToo, same⟩ := writes.field refers built standard.lenient has readToo
      have forms : (compiler.setting mode).Forms spec schema := by
        rwa [Setting.ShowsType, alone] at typedToo
      refine ⟨property, found, ?_⟩
      simp only [admitsNull, same]
      exact forms.admits_null_iff flagged standard widens own plainly typed
  · intro definition body field choices spec writes has given read null
    obtain ⟨property, schema, found, typed, same⟩ := writes.field refers built standard.lenient has read
    rw [Setting.ShowsType, given, null] at typed
    have done : (Schema.choice (.texts choices)).nullable? false = .ok schema := by
      rw [← flagged]
      exact typed
    refine ⟨property, found, ?_⟩
    simp only [admitsNull, same, Schema.rejects_null_choice standard done, Bool.false_eq_true, not_false_eq_true]

/-- Types with a body of each kind that has a type, and the fields of a product. -/
theorem nullable_typed_admits_null_iff_of_pet :
    let id : Field := ⟨"id", .text "[integer]?", some "Numbers", none, none⟩
    let coat : Field := ⟨"coat", .text "string?", none, none, some ["long", "short"]⟩
    let pet : Definition := .product "Pet" [id, coat] none none "application/json"
    let color : Definition := .sum "Color" ["red", "blue"]
    let catalog : Catalog :=
      ⟨[("pet", .checked pet), ("color", .checked color)], [(.text "Pet", "pet"), (.text "Color", "color")]⟩
    let reader : Reader :=
      { equal := fun _ document => !document.isNull, covers := fun _ _ => false, asks := fun _ _ _ => true }
    let refers : Value → Value → Bool := fun _ _ => false
    let compiler := new catalog .builtins .jsonSchema none
    let admitsNull (schema : Schema) : Prop := schema.toValue.admits reader refers .null = true
    catalog.OfDefinitions ∧ Mode.jsonSchema.isFlagged = false ∧ reader.IsStandard ∧
      (∀ spec, catalog.IsOwn .builtins spec) ∧
      (∃ parts widened, (compiler.compile (.written (.text "pet")) .jsonSchema).outcome = .ok (.single (.keywords parts)) ∧
        Record.has parts "type" = true ∧
        (compiler.compile (.written (.text "pet?")) .jsonSchema).outcome = .ok (.single widened) ∧ admitsNull widened) ∧
      (∃ widened, (compiler.compile (.written (.text "color?")) .jsonSchema).outcome = .ok (.single widened) ∧
        ¬ admitsNull widened) ∧
      ∃ body, compiler.WritesBody .jsonSchema pet body ∧ pet.Has id ∧ pet.Has coat ∧
        (∃ property, body.property? "id" = some property ∧ admitsNull property) ∧
        ∃ property, body.property? "coat" = some property ∧ ¬ admitsNull property := by
  intro id coat pet color catalog reader refers compiler admitsNull
  have built : catalog.OfDefinitions := Catalog.OfDefinitions.empty.register_all [("pet", pet), ("color", color)] rfl
  have standard : reader.IsStandard :=
    { lenient := fun _ _ _ _ => rfl, elsewhere := fun _ _ _ => rfl, equal := fun _ => rfl }
  have own (spec : TypeSpec) : catalog.IsOwn .builtins spec := by
    intro name fragment _ supplies
    cases supplies with
    | primitive classified => exact Registry.mem_of_get? (classify_primitive.mp classified)
    | scalar classified => simpa [Catalog.toList, catalog, pet, color] using mem_of_classify_eq classified
  have noSum : ¬ catalog.NamesSum .builtins (.named "pet" false false) := by
    rintro ⟨-, label, values, denotes⟩
    have object : catalog.Denotes .builtins (.named "pet" false false) pet := ⟨.product, rfl⟩
    have impossible : pet.kind = .sum := by
      rw [object.unique denotes]
      rfl
    exact absurd impossible (by decide)
  have sum : catalog.NamesSum .builtins (.named "color" false false) := ⟨rfl, "Color", ["red", "blue"], .sum, rfl⟩
  have noSums : ¬ catalog.NamesSum .builtins (.array (.named "integer" false false) false false) := by
    rintro ⟨impossible, -⟩
    cases impossible
  obtain ⟨parts, answered, typed⟩ : ∃ parts, (compiler.compile (.written (.text "pet")) .jsonSchema).outcome =
      .ok (.single (.keywords parts)) ∧ Record.has parts "type" = true := ⟨_, by cbv, rfl⟩
  obtain ⟨texts, answeredToo, typedToo⟩ : ∃ parts, (compiler.compile (.written (.text "color")) .jsonSchema).outcome =
      .ok (.single (.keywords parts)) ∧ Record.has parts "type" = true := ⟨_, by cbv, rfl⟩
  obtain ⟨items, answeredLast, typedLast⟩ : ∃ parts, (compiler.compile (.written (.text "[integer]")) .jsonSchema).outcome =
      .ok (.single (.keywords parts)) ∧ Record.has parts "type" = true := ⟨_, by cbv, rfl⟩
  obtain ⟨body, writes⟩ : ∃ body, (compiler.compile (.entry (.checked pet)) .jsonSchema).outcome = .ok (.single body) :=
    ⟨_, by cbv⟩
  have hasId : Definition.Has (.product "Pet" ([] ++ [id, coat]) none none "application/json") id :=
    .field (by simp [coat, id])
  have hasCoat : Definition.Has (.product "Pet" ([id] ++ [coat]) none none "application/json") coat := .field (by simp)
  obtain ⟨settled, listed⟩ := nullable_typed_admits_null_iff compiler .jsonSchema reader refers built rfl standard
  obtain ⟨pets, -⟩ := settled (.text "pet") (.named "pet" false false) parts (toOption_eq_some.mp (by decide +kernel))
    answered typed (own _)
  obtain ⟨colors, -⟩ := settled (.text "color") (.named "color" false false) texts (toOption_eq_some.mp (by decide +kernel))
    answeredToo typedToo (own _)
  obtain ⟨-, fields⟩ := settled (.text "[integer]") (.array (.named "integer" false false) false false) items
    (toOption_eq_some.mp (by decide +kernel)) answeredLast typedLast (own _)
  obtain ⟨widened, answer, admits⟩ := pets (.text "pet?") _ (toOption_eq_some.mp (by decide +kernel))
    (.named "pet" false false)
  obtain ⟨widenedToo, answerToo, admitsToo⟩ := colors (.text "color?") _ (toOption_eq_some.mp (by decide +kernel))
    (.named "color" false false)
  obtain ⟨property, found, admitsLast⟩ := fields pet body id _ writes hasId rfl (toOption_eq_some.mp (by decide +kernel))
    (.array (.named "integer" false false) false false)
  exact ⟨built, rfl, standard, own, ⟨parts, widened, answered, typed, answer, admits.mpr noSum⟩,
    ⟨widenedToo, answerToo, fun null => admitsToo.mp null sum⟩, body, writes, hasId, hasCoat,
    ⟨property, found, admitsLast.mpr noSums⟩, listed pet body coat ["long", "short"] (.named "string" false true) writes
      hasCoat rfl (toOption_eq_some.mp (by decide +kernel)) rfl⟩

/-- Null is admitted beside texts, but it is none of those that are listed. Where the sum is referred to it is an
alternative of its own. -/
theorem listed_values_reject_null :
    let color : Definition := .sum "Color" ["red"]
    let shade : Field := ⟨"shade", .text "string?", none, none, some ["red"]⟩
    let paint : Definition := .product "Paint" [shade] none none "application/json"
    let catalog : Catalog :=
      ⟨[("color", .checked color), ("paint", .checked paint)], [(.text "Color", "color"), (.text "Paint", "paint")]⟩
    let equal (value document : Value) : Bool :=
      match value, document with
      | .text one, .text other => one == other
      | _, _ => false
    let reader : Reader := { equal, covers := fun _ _ => false, asks := fun _ _ _ => true }
    let listed : Schema :=
      .keywords [("type", .data (.list [.text "string", .text "null"])), ("enum", .data (.texts ["red"]))]
    let compiler := new catalog .builtins .jsonSchema none
    let inline (text : String) := (compiler.compile (.written (.text text)) .jsonSchema).outcome
    let hoisting := Mode.jsonSchema.union .refSchema
    let hoisted := compiler.compile (.written (.text "color?")) hoisting
    catalog.OfDefinitions ∧ reader.IsStandard ∧ Mode.jsonSchema.isFlagged = false ∧
      inline "color" = .ok (.single (.choice (.texts ["red"]))) ∧ inline "color?" = .ok (.single listed) ∧
      (∃ body, compiler.WritesBody .jsonSchema paint body ∧ paint.Has shade ∧ body.property? "shade" = some listed) ∧
      (∀ refers, listed.toValue.admits reader refers .null = false) ∧
      ∃ schema, hoisted.outcome = .ok (.single schema) ∧ ∀ assumed, ∀ depth ≥ 2,
        (hoisted.compiler.schemasFor hoisting).admits (compiler.dialect hoisting) reader assumed depth schema.toValue .null =
          true := by
  intro color shade paint catalog equal reader listed compiler inline hoisting hoisted
  have built : catalog.OfDefinitions := Catalog.OfDefinitions.empty.register_all [("color", color), ("paint", paint)] rfl
  have standard : reader.IsStandard :=
    { lenient := fun _ _ _ _ => rfl, elsewhere := fun _ _ _ => rfl, equal := fun _ => rfl }
  have has : Definition.Has (.product "Paint" ([] ++ [shade]) none none "application/json") shade := .field (by simp)
  have plain : (compiler.compile (.written (.text "color")) .jsonSchema).outcome =
      .ok (.single (.choice (.texts ["red"]))) := by cbv
  have widened : (compiler.compile (.written (.text "color?")) .jsonSchema).outcome = .ok (.single listed) := by cbv
  have written : ∃ body, (compiler.compile (.entry (.checked paint)) .jsonSchema).outcome = .ok (.single body) ∧
      body.property? "shade" = some listed := ⟨_, by cbv, rfl⟩
  obtain ⟨body, writes, found⟩ := written
  have referred : (compiler.compile (.written (.text "color?")) hoisting).outcome =
      .ok (.single (.oneOf [.reference "#/definitions/" "Color", .null])) := by cbv
  let table := hoisted.compiler.schemasFor hoisting
  let schema : Schema := .oneOf [.reference "#/definitions/" "Color", .null]
  have ends : table.endsBefore (compiler.dialect hoisting).base 2 schema.toValue = true := by decide +kernel
  have admitted : table.admits (compiler.dialect hoisting) reader (fun _ _ => false) 2 schema.toValue .null = true := by
    decide +kernel
  exact ⟨built, standard, rfl, plain, widened, ⟨body, writes, has, found⟩, fun _ => rfl, schema, referred,
    fun _ _ deep => (Table.admits_of_endsBefore ends deep .null).trans admitted⟩

/-- Whether a reference admits null that says so, where the plain one has a schema without a type: if the plain schema
has no alternatives, only if it does not admit null itself; if it has, only if none of them does and no other keyword
excludes it. So null is not admitted where it was before. Alternatives that are no list of any kind cannot be widened. -/
theorem nullable_untyped_admits_null_iff (compiler : Compiler) (mode : Mode) (reader : Reader)
    (refers : Value → Value → Bool) (unflagged : mode.isFlagged = false) (value other : Value) (plain spec : TypeSpec)
    (parts : Schema.Parts) (read : TypeSpec.read false value = .ok plain) (readToo : TypeSpec.read false other = .ok spec)
    (widens : plain.Widens spec)
    (answered : (compiler.compile (.written value) mode).outcome = .ok (.single (.keywords parts)))
    (untyped : Record.has parts "type" = false) :
    let outcome := (compiler.compile (.written other) mode).outcome
    let admitsNull (schema : Schema) : Prop := schema.toValue.admits reader refers .null = true
    (Record.find? parts "oneOf" = none → ∃ widened, outcome = .ok (.single widened) ∧
      (admitsNull widened ↔ ¬ admitsNull (.keywords parts))) ∧
    ∀ part, Record.find? parts "oneOf" = some part →
      ((Schema.partValue part).members? = none → outcome = .error (.unusable .unsuitable)) ∧
      ∀ items, (Schema.partValue part).members? = some items → ∃ widened, outcome = .ok (.single widened) ∧
        (admitsNull widened ↔ (∀ item ∈ items, item.admits reader refers .null = false) ∧
          admitsNull (Schema.opened parts)) ∧
        (Schema.partValue part = .list items → admitsNull (.keywords parts) → ¬ admitsNull widened) := by
  intro outcome admitsNull
  have flagged : (compiler.dialect mode).flagged = false := unflagged
  have answers {widened : Schema} (done : (Schema.keywords parts).nullable? false = .ok widened) :
      outcome = .ok (.single widened) := (compile_widened read readToo widens answered (flagged ▸ done)).1
  have absent : Schema.type? parts = none := by
    have none : Record.find? parts "type" = none := by
      rwa [Record.has, Option.isSome_eq_false_iff, Option.isNone_iff_eq_none] at untyped
    rw [Schema.type?, none]
  constructor
  · intro alone
    refine ⟨.oneOf [.keywords parts, .null], answers ?_, ?_⟩
    · rw [Schema.nullable?_keywords, alone, Schema.marked, absent]
      rfl
    · simp only [admitsNull, Schema.admits_null_alternative, Bool.not_eq_true]
  · intro part found
    have whole : (Schema.keywords parts).nullable? false =
        (Schema.addNull part).map fun widened => .keywords (Record.set parts "oneOf" widened) := by
      rw [Schema.nullable?_keywords, found, untyped]
    refine ⟨fun none => ?_, fun items members => ?_⟩
    · have failed : (Schema.keywords parts).nullable? (compiler.dialect mode).flagged = .error .unsuitable := by
        rw [flagged, whole, Schema.addNull_of_members?_eq_none none]
        rfl
      exact compile_unwidened read readToo widens answered failed
    obtain ⟨widened, added, listed⟩ := Schema.addNull_members members
    have exactly : admitsNull (.keywords (Record.set parts "oneOf" widened)) ↔
        (∀ item ∈ items, item.admits reader refers .null = false) ∧ admitsNull (Schema.opened parts) :=
      Schema.admits_null_appended listed parts
    refine ⟨.keywords (Record.set parts "oneOf" widened), answers ?_, exactly, fun own before => ?_⟩
    · rw [whole, added]
      rfl
    · -- the one alternative that admitted null before is there still
      intro after
      obtain ⟨item, inside, admitted⟩ := Schema.exists_alternative found own before
      rw [(exactly.mp after).1 item inside] at admitted
      cases admitted

/-- A union whose alternatives all have other types, and a sum that is referred to. -/
theorem nullable_untyped_admits_null_iff_of_either :
    let color : Definition := .sum "Color" ["red"]
    let either : Definition := .union "Either" [.text "string", .text "[color]"]
    let catalog : Catalog :=
      ⟨[("color", .checked color), ("either", .checked either)], [(.text "Color", "color"), (.text "Either", "either")]⟩
    let reader : Reader := { equal := fun _ _ => false, covers := fun _ _ => false, asks := fun _ _ _ => true }
    let refers : Value → Value → Bool := fun _ document => !document.isNull
    let compiler := new catalog .builtins .jsonSchema none
    let admitsNull (schema : Schema) : Prop := schema.toValue.admits reader refers .null = true
    let hoisting := Mode.jsonSchema.union .refSchema
    Mode.jsonSchema.isFlagged = false ∧ hoisting.isFlagged = false ∧
      (∃ widened, (compiler.compile (.written (.text "either?")) .jsonSchema).outcome = .ok (.single widened) ∧
        admitsNull widened) ∧
      ∃ widened, (compiler.compile (.written (.text "color?")) hoisting).outcome = .ok (.single widened) ∧
        admitsNull widened := by
  intro color either catalog reader refers compiler admitsNull hoisting
  let alternatives : List Schema := [.ofValue (.record [("type", .text "string")]), .array (.choice (.texts ["red"]))]
  have inline : (compiler.compile (.written (.text "either")) .jsonSchema).outcome =
      .ok (.single (.oneOf alternatives)) := by cbv
  have referred : (compiler.compile (.written (.text "color")) hoisting).outcome =
      .ok (.single (.reference "#/definitions/" "Color")) := by cbv
  have unflagged : (Mode.jsonSchema.union .refSchema).isFlagged = false := by decide +kernel
  obtain ⟨-, counted⟩ := nullable_untyped_admits_null_iff compiler .jsonSchema reader refers rfl (.text "either")
    (.text "either?") _ _ _ (toOption_eq_some.mp (by decide +kernel)) (toOption_eq_some.mp (by decide +kernel))
    (.named "either" false false) inline rfl
  obtain ⟨alone, -⟩ := nullable_untyped_admits_null_iff compiler hoisting reader refers unflagged (.text "color")
    (.text "color?") _ _ _ (toOption_eq_some.mp (by decide +kernel)) (toOption_eq_some.mp (by decide +kernel))
    (.named "color" false false) referred rfl
  obtain ⟨widened, answer, admits, -⟩ := (counted (.schemas alternatives) rfl).2 _ rfl
  obtain ⟨widenedToo, answerToo, admitsToo⟩ := alone rfl
  refine ⟨rfl, unflagged, ⟨widened, answer, admits.mpr ⟨?_, rfl⟩⟩, widenedToo, answerToo, admitsToo.mpr Bool.false_ne_true⟩
  decide +kernel

/-- A union admits null with one of its alternatives, and one more that admits it is too many, also where the union is
referred to. What says nothing admits null beside anything else. -/
theorem null_counted_twice :
    let either : Definition := .union "Either" [.text "string?", .text "integer"]
    let anything : Definition := .scalar "Anything" []
    let catalog : Catalog :=
      ⟨[("either", .checked either), ("anything", .checked anything)],
        [(.text "Either", "either"), (.text "Anything", "anything")]⟩
    let reader : Reader := { equal := fun _ _ => false, covers := fun _ _ => false, asks := fun _ _ _ => true }
    let string : Schema := .keywords [("type", .data (.list [.text "string", .text "null"]))]
    let integer : Schema := .keywords [("type", .data (.text "integer"))]
    let nothing : Schema := .keywords []
    let compiler := new catalog .builtins .jsonSchema none
    let inline (text : String) := (compiler.compile (.written (.text text)) .jsonSchema).outcome
    let hoisting := Mode.jsonSchema.union .refSchema
    let hoisted := compiler.compile (.written (.text "either?")) hoisting
    catalog.OfDefinitions ∧ Mode.jsonSchema.isFlagged = false ∧
      inline "either" = .ok (.single (.oneOf [string, integer])) ∧
      inline "either?" = .ok (.single (.oneOf [string, integer, .null])) ∧
      inline "anything" = .ok (.single nothing) ∧ inline "anything?" = .ok (.single (.oneOf [nothing, .null])) ∧
      (∀ refers, (Schema.oneOf [string, integer]).toValue.admits reader refers .null = true ∧
        (Schema.oneOf [string, integer, .null]).toValue.admits reader refers .null = false ∧
        nothing.toValue.admits reader refers .null = true ∧
        (Schema.oneOf [nothing, .null]).toValue.admits reader refers .null = false) ∧
      ∃ schema, hoisted.outcome = .ok (.single schema) ∧ ∀ assumed, ∀ depth ≥ 2,
        (hoisted.compiler.schemasFor hoisting).admits (compiler.dialect hoisting) reader assumed depth schema.toValue .null =
          false := by
  intro either anything catalog reader string integer nothing compiler inline hoisting hoisted
  have built : catalog.OfDefinitions :=
    Catalog.OfDefinitions.empty.register_all [("either", either), ("anything", anything)] rfl
  have eitherPlain : (compiler.compile (.written (.text "either")) .jsonSchema).outcome =
      .ok (.single (.oneOf [string, integer])) := by cbv
  have eitherCounted : (compiler.compile (.written (.text "either?")) .jsonSchema).outcome =
      .ok (.single (.oneOf [string, integer, .null])) := by cbv
  have anythingPlain : (compiler.compile (.written (.text "anything")) .jsonSchema).outcome = .ok (.single nothing) := by cbv
  have anythingCounted : (compiler.compile (.written (.text "anything?")) .jsonSchema).outcome =
      .ok (.single (.oneOf [nothing, .null])) := by cbv
  let table := hoisted.compiler.schemasFor hoisting
  let schema : Schema := .oneOf [.reference "#/definitions/" "Either", .null]
  have referred : (compiler.compile (.written (.text "either?")) hoisting).outcome = .ok (.single schema) := by cbv
  have ends : table.endsBefore (compiler.dialect hoisting).base 2 schema.toValue = true := by decide +kernel
  have rejected : table.admits (compiler.dialect hoisting) reader (fun _ _ => false) 2 schema.toValue .null = false := by
    decide +kernel
  exact ⟨built, rfl, eitherPlain, eitherCounted, anythingPlain, anythingCounted, fun _ => ⟨rfl, rfl, rfl, rfl⟩, schema,
    referred, fun _ _ deep => (Table.admits_of_endsBefore ends deep .null).trans rejected⟩

end Compiler

end Schemata
