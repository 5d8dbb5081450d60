import Schemata.Proofs.NullableReferences
import Schemata.Proofs.SchemaMeaning
import Schemata.Proofs.WrittenSchemas

/-! What else a reference means once it admits null. Schemas are read as openly as can be: `type`, `oneOf` and `allOf`
have their meaning, and any other keyword asks whatever it likes. Widening rewrites a schema in five ways, and none of
them makes a difference to a document that is not null. -/

namespace Schemata

namespace Value

section Reading

variable (asks : String → Value → Value → Bool)

def asksOpenly (name : String) (value document : Value) : Bool :=
  match name, value with
  | "type", .text type => hasType type document
  | "type", .list types => types.any fun type =>
    match type with
    | .text type => hasType type document
    | _ => false
  | name, value => asks name value document

mutual

/-- Whether a schema validates a document: it is the conjunction of its keywords. -/
def validates : Value → Value → Bool
  | .map entries, document => validatesEach entries document
  | .bool allowed, _ => allowed
  | _, _ => false
termination_by structural schema => schema

def validatesEach : Object → Value → Bool
  | [], _ => true
  | (.text name, value) :: rest, document =>
    demands (Keyword.of name) name value document && validatesEach rest document
  | _ :: rest, document => validatesEach rest document
termination_by structural entries => entries

/-- What a keyword demands of a document. One alternative has to validate it and no other, and all conditions. -/
def demands : Keyword → String → Value → Value → Bool
  | .oneOf, _, .list alternatives, document => (validations alternatives document).count true == 1
  | .allOf, _, .list conditions, document => (validations conditions document).all id
  | _, name, value, document => asksOpenly asks name value document
termination_by structural _ _ value => value

def validations : List Value → Value → List Bool
  | [], _ => []
  | schema :: rest, document => validates schema document :: validations rest document
termination_by structural schemas => schemas

end

end Reading

variable {asks : String → Value → Value → Bool}

theorem validations_eq_map (schemas : List Value) (document : Value) :
    validations asks schemas document = schemas.map fun schema => schema.validates asks document := by
  induction schemas with
  | nil => rfl
  | cons head rest ih => rw [validations, ih, List.map_cons]

theorem demands_plain (name : String) (value document : Value) :
    demands asks .plain name value document = asksOpenly asks name value document := by
  cases value <;> rfl

/-- Null beside a type makes no difference to any other document. -/
theorem asksOpenly_typeWithNull {type document : Value} (formed : (∃ text, type = .text text) ∨ ∃ types, type = .list types)
    (other : document.isNull = false) :
    asksOpenly asks "type" (Schema.typeWithNull type) document = asksOpenly asks "type" type document := by
  have noNull : hasType "null" document = false := (hasType_null document).trans other
  rcases formed with ⟨text, rfl⟩ | ⟨types, rfl⟩
  · simp only [Schema.typeWithNull, items?, untied, asksOpenly, List.any_cons, List.any_nil, noNull, Bool.or_false]
  · simp only [Schema.typeWithNull, items?, untied]
    split
    · rfl
    · simp only [asksOpenly, List.any_append, List.any_cons, List.any_nil, noNull, Bool.or_false]

end Value

namespace Record

/-- A test that the new value passes if the old one did, or passes at all where there was none, holds of the record as
before. -/
theorem all_set {test : String × α → Bool} {record : Record α} {name : String} {value : α}
    (same : match find? record name with
      | some old => test (name, value) = test (name, old)
      | none => test (name, value) = true) : (set record name value).all test = record.all test := by
  induction record with
  | nil =>
    rw [set, List.all_cons, show test (name, value) = true from same]
    rfl
  | cons head rest ih =>
    obtain ⟨key, held⟩ := head
    by_cases own : key = name
    · subst own
      simp only [find?, List.lookup_cons_self] at same
      simp only [set, if_pos, List.all_cons, same]
    · have different : (name == key) = false := beq_false_of_ne (Ne.symm own)
      simp only [find?, List.lookup_cons, different] at same ih
      simp only [set, if_neg own, List.all_cons, ih same]

end Record

namespace Schema

/-- What the keywords that widening looks at should hold: a text or a list as the type, and a list of alternatives. -/
def IsFormed : Schema → Prop
  | .keywords parts =>
    (∀ type, type? parts = some type → (∃ text, type = .text text) ∨ ∃ types, type = .list types) ∧
      ∀ part, Record.find? parts "oneOf" = some part → ∃ items, partValue part = .list items
  | .data _ => False

variable {asks : String → Value → Value → Bool}

theorem validatesEach_entries (parts : Parts) (document : Value) :
    Value.validatesEach asks (entries parts) document = parts.all fun entry =>
      Value.demands asks (Keyword.of entry.1) entry.1 (partValue entry.2) document := by
  induction parts with
  | nil => rfl
  | cons head rest ih =>
    obtain ⟨name, part⟩ := head
    rw [entries, Value.validatesEach, ih, List.all_cons]

theorem validates_keywords (parts : Parts) (document : Value) :
    (keywords parts).toValue.validates asks document = parts.all fun entry =>
      Value.demands asks (Keyword.of entry.1) entry.1 (partValue entry.2) document := by
  rw [toValue, Value.validates, validatesEach_entries]

/-- Alternatives become a list of what they are made of, with null behind. -/
theorem addNull_members {part : Part Schema} {items : List Value} (members : (partValue part).members? = some items) :
    ∃ widened, addNull part = .ok widened ∧ partValue widened = .list (items ++ [null.toValue]) := by
  cases part with
  | schemas alternatives =>
    cases members
    refine ⟨_, rfl, ?_⟩
    simp only [partValue, values_eq_map, List.map_append, List.map_singleton]
  | data | reference | schema | members =>
    refine ⟨.data (.list (items ++ [null.toValue])), ?_, rfl⟩
    simp only [addNull, members]

theorem validates_null {document : Value} (other : document.isNull = false) :
    null.toValue.validates asks document = false := by
  cases document <;> first | rfl | cases other

section Rewritings

variable {parts : Parts} {document : Value}

private theorem validates_appended {part widened : Part Schema} {items : List Value} (other : document.isNull = false)
    (found : Record.find? parts "oneOf" = some part) (listed : partValue part = .list items)
    (listedToo : partValue widened = .list (items ++ [null.toValue])) :
    (keywords (Record.set parts "oneOf" widened)).toValue.validates asks document =
      (keywords parts).toValue.validates asks document := by
  rw [validates_keywords, validates_keywords]
  apply Record.all_set
  rw [found]
  simp only [listed, listedToo, Keyword.of, Value.demands, Value.validations_eq_map, List.map_append, List.map_singleton,
    validates_null other, List.count_append]
  rfl

private theorem validates_alternative (other : document.isNull = false) :
    (oneOf [keywords parts, null]).toValue.validates asks document = (keywords parts).toValue.validates asks document := by
  rw [oneOf, validates_keywords, List.all_cons, List.all_nil, Bool.and_true]
  simp only [Keyword.of, partValue, values, Value.demands, Value.validations_eq_map, List.map_cons, List.map_nil,
    validates_null other]
  cases (keywords parts).toValue.validates asks document <;> rfl

/-- The flag asks nothing of what is not null. -/
private theorem demands_flag (free : ∀ value document, document.isNull = false → asks "nullable" value document = true)
    (other : document.isNull = false) (value : Value) :
    Value.demands asks (Keyword.of "nullable") "nullable" value document = true := by
  rw [show Keyword.of "nullable" = .plain from rfl, Value.demands_plain]
  cases value <;> exact free _ document other

private theorem validates_condition
    (free : ∀ value document, document.isNull = false → asks "nullable" value document = true)
    (other : document.isNull = false) (flag : Part Schema) :
    (keywords [("allOf", .schemas [keywords parts]), ("nullable", flag)]).toValue.validates asks document =
      (keywords parts).toValue.validates asks document := by
  rw [validates_keywords, List.all_cons, List.all_cons, List.all_nil, demands_flag free other]
  simp only [Keyword.of, partValue, values, Value.demands, Value.validations_eq_map, List.map_cons, List.map_nil,
    List.all_cons, List.all_nil, id_eq, Bool.and_true]

private theorem validates_flagged
    (free : ∀ value document, document.isNull = false → asks "nullable" value document = true)
    (other : document.isNull = false) (flag : Part Schema) :
    (keywords (Record.set parts "nullable" flag)).toValue.validates asks document =
      (keywords parts).toValue.validates asks document := by
  rw [validates_keywords, validates_keywords]
  apply Record.all_set
  simp only [demands_flag free other]
  split <;> trivial

private theorem validates_typed {type : Value} (other : document.isNull = false) (typed : type? parts = some type)
    (formed : (∃ text, type = .text text) ∨ ∃ types, type = .list types) :
    (keywords (Record.set parts "type" (.data (typeWithNull type)))).toValue.validates asks document =
      (keywords parts).toValue.validates asks document := by
  rw [validates_keywords, validates_keywords]
  apply Record.all_set
  rw [find?_of_type? typed]
  simp only [partValue, show Keyword.of "type" = .plain from rfl, Value.demands_plain]
  exact Value.asksOpenly_typeWithNull formed other

end Rewritings

/-- What widening makes of a schema says the same of everything but null. -/
theorem validates_widened {schema : Schema} (formed : schema.IsFormed) (flagged : Bool) :
    ∃ widened, schema.nullable? flagged = .ok widened ∧ ∀ asks : String → Value → Value → Bool,
      (∀ value document, document.isNull = false → asks "nullable" value document = true) →
      ∀ document, document.isNull = false →
        widened.toValue.validates asks document = schema.toValue.validates asks document := by
  cases schema with
  | data => exact formed.elim
  | keywords parts =>
    obtain ⟨types, alternatives⟩ := formed
    rw [nullable?_keywords]
    split
    next part found _ =>
      obtain ⟨items, listed⟩ := alternatives part found
      have members : (partValue part).members? = some items := by
        rw [listed]
        rfl
      obtain ⟨widened, added, listedToo⟩ := addNull_members members
      rw [added]
      exact ⟨_, rfl, fun asks _ document other => validates_appended other found listed listedToo⟩
    next =>
      refine ⟨_, rfl, fun asks free document other => ?_⟩
      unfold marked
      cases typed : type? parts with
      | none =>
        cases flagged with
        | true => exact validates_condition free other _
        | false => exact validates_alternative other
      | some type =>
        cases flagged with
        | true => exact validates_flagged free other _
        | false => exact validates_typed other typed (types type typed)

theorem isFormed_typed {kind : String} {rest : Parts} (absent : "oneOf" ∉ Record.names rest) :
    (keywords (("type", .data (.text kind)) :: rest)).IsFormed := by
  refine ⟨fun type typed => ?_, fun part found => ?_⟩
  · cases typed
    exact .inl ⟨kind, rfl⟩
  · change Record.find? rest "oneOf" = some part at found
    exact absurd (Record.mem_names_of_mem (Record.mem_of_find? found)) absent

end Schema

/-- Every primitive has a type, and all that it says beside is about texts. -/
theorem Registry.builtins_typed {name : String} {fragment : Value} (member : (name, fragment) ∈ builtins.fragments) :
    ∃ kind rest, fragment = .record (("type", .text kind) :: rest) ∧ kind ≠ "null" ∧
      ∀ entry ∈ rest, entry.1 ∈ ["format", "pattern"] := by
  simp only [builtins, List.mem_cons, Prod.mk.injEq, List.not_mem_nil, or_false] at member
  rcases member with ⟨-, rfl⟩ | ⟨-, rfl⟩ | ⟨-, rfl⟩ | ⟨-, rfl⟩ | ⟨-, rfl⟩ | ⟨-, rfl⟩ | ⟨-, rfl⟩ | ⟨-, rfl⟩ | ⟨-, rfl⟩
  all_goals exact ⟨_, _, rfl, by decide, by simp⟩

theorem Registry.builtins_isFormed {name : String} {fragment : Value} (member : (name, fragment) ∈ builtins.fragments) :
    (Schema.ofValue fragment).IsFormed := by
  obtain ⟨kind, rest, rfl, -, texts⟩ := builtins_typed member
  rw [Schema.ofValue_record]
  refine Schema.isFormed_typed fun inside => ?_
  obtain ⟨part, held⟩ := Record.exists_of_mem_names inside
  obtain ⟨entry, own, same⟩ := List.mem_map.mp held
  have known := texts entry own
  rw [(Prod.mk.inj same).1] at known
  simp at known

namespace Setting

variable {setting : Setting}

theorem Builds.isFormed {spec : TypeSpec} {stand : Schema} (builds : setting.Builds spec stand)
    (formed : ∀ name value, setting.catalog.Supplies setting.registry name value → (Schema.ofValue value).IsFormed) :
    stand.IsFormed := by
  cases builds with
  | array items => exact Schema.isFormed_typed (by simp [Record.names])
  | fragment supplies => exact formed _ _ supplies
  | @type _ _ _ definition _ denotes named stands =>
    cases stands with
    | referred =>
      refine ⟨fun type typed => ?_, fun part found => ?_⟩
      · cases typed
      · cases found
    | written inline shown =>
      have object (kind : definition.kind = .product ∨ definition.kind = .map) : stand.IsFormed := by
        obtain ⟨rest, rfl, parts⟩ := Setting.ShowsBody.exists_object_eq kind shown
        refine Schema.isFormed_typed fun member => ?_
        obtain ⟨part, inside⟩ := Record.exists_of_mem_names member
        have known := (parts _ inside).name
        simp at known
      cases definition with
      | scalar | input => cases named
      | product => exact object (.inl rfl)
      | map => exact object (.inr rfl)
      | sum =>
        cases shown
        exact Schema.isFormed_typed (by simp [Record.names])
      | union name alternatives =>
        obtain ⟨schemas, -, rfl⟩ := shown
        refine ⟨fun type typed => ?_, fun part found => ?_⟩
        · cases typed
        · cases found
          exact ⟨_, rfl⟩

end Setting

namespace Compiler

/-- Whatever other keywords ask, widening a schema makes a difference to null at most, in every dialect. So it is with
references: one that admits null leaves the same tables as the plain one, and validates the same documents beside null.
All references can be widened if all fragments are formed. -/
theorem nullable_keeps_other_documents (asks : String → Value → Value → Bool)
    (flag : ∀ value document, document.isNull = false → asks "nullable" value document = true) :
    (∀ schema flagged, Schema.IsFormed schema → ∃ widened, schema.nullable? flagged = .ok widened ∧
      ∀ document, document.isNull = false →
        widened.toValue.validates asks document = schema.toValue.validates asks document) ∧
    ∀ (compiler : Compiler) (mode : Mode) (value other : Value) (plain spec : TypeSpec) (schema : Schema),
      TypeSpec.read false value = .ok plain → TypeSpec.read false other = .ok spec → plain.Widens spec →
      (compiler.compile (.written value) mode).outcome = .ok (.single schema) →
      (schema.IsFormed → ∃ widened, (compiler.compile (.written other) mode).outcome = .ok (.single widened) ∧
        (compiler.compile (.written other) mode).compiler = (compiler.compile (.written value) mode).compiler ∧
        ∀ document, document.isNull = false →
          widened.toValue.validates asks document = schema.toValue.validates asks document) ∧
      (compiler.catalog.OfDefinitions →
        (∀ name fragment, compiler.catalog.Supplies compiler.registry name fragment → (Schema.ofValue fragment).IsFormed) →
        schema.IsFormed) := by
  constructor
  · intro schema flagged formed
    obtain ⟨widened, done, same⟩ := Schema.validates_widened formed flagged
    exact ⟨widened, done, same asks flag⟩
  · intro compiler mode value other plain spec schema read readToo widens answered
    refine ⟨fun formed => ?_, fun built formed => ?_⟩
    · obtain ⟨widened, done, same⟩ := Schema.validates_widened formed (compiler.dialect mode).flagged
      obtain ⟨answeredToo, tables⟩ := compile_widened read readToo widens answered done
      exact ⟨widened, answeredToo, tables, same asks flag⟩
    · obtain ⟨stand, builds, widened⟩ := forms_of_answered built read answered
      have unmarked : plain.nullable = false := by cases widens <;> rfl
      rw [unmarked] at widened
      cases widened
      exact builds.isFormed formed

/-- A union with a member that admits null itself, and has two types already. -/
theorem nullable_keeps_other_documents_of_either :
    let amount : Definition := .scalar "Amount" [("type", .list [.text "integer", .text "string"]), ("minimum", .int 0)]
    let either : Definition := .union "Either" [.text "boolean", .text "amount?"]
    let catalog : Catalog :=
      ⟨[("amount", .checked amount), ("either", .checked either)], [(.text "Amount", "amount"), (.text "Either", "either")]⟩
    let asks (name : String) (value document : Value) : Bool :=
      if name = "nullable" then !document.isNull || value.isText "true" else document.isText "five"
    let compiler := new catalog .builtins .jsonSchema none
    let plain := compiler.compile (.written (.text "either")) .jsonSchema
    let wide := compiler.compile (.written (.text "either?")) .jsonSchema
    (∀ value document, document.isNull = false → asks "nullable" value document = true) ∧
      (TypeSpec.named "either" false false).Widens (.named "either" false true) ∧ catalog.OfDefinitions ∧
      (∀ name fragment, catalog.Supplies .builtins name fragment → (Schema.ofValue fragment).IsFormed) ∧
      ∃ schema widened, plain.outcome = .ok (.single schema) ∧ wide.outcome = .ok (.single widened) ∧ schema.IsFormed ∧
        wide.compiler = plain.compiler ∧ ∀ document, document.isNull = false →
          widened.toValue.validates asks document = schema.toValue.validates asks document := by
  intro amount either catalog asks compiler plain wide
  have flag (value document : Value) (other : document.isNull = false) : asks "nullable" value document = true := by
    simp [asks, other]
  have built : catalog.OfDefinitions :=
    Catalog.OfDefinitions.empty.register_all [("amount", amount), ("either", either)] rfl
  have formed (name : String) (fragment : Value) (supplies : catalog.Supplies .builtins name fragment) :
      (Schema.ofValue fragment).IsFormed := by
    cases supplies with
    | primitive classified => exact Registry.builtins_isFormed (Registry.mem_of_get? (classify_primitive.mp classified))
    | scalar classified =>
      have held := mem_of_classify_eq classified
      simp only [Catalog.toList, catalog, either, amount, List.map_cons, List.map_nil, List.mem_cons, List.not_mem_nil,
        or_false, Entry.checked.injEq, Definition.scalar.injEq, reduceCtorEq] at held
      obtain ⟨rfl, rfl⟩ := held
      rw [Schema.ofValue_record]
      refine ⟨fun type typed => ?_, fun part found => ?_⟩
      · cases typed
        exact .inr ⟨_, rfl⟩
      · cases found
  have succeeds : (plain.outcome.toOption.bind Compiled.single?).isSome = true := by decide +kernel
  obtain ⟨schema, found⟩ := Option.isSome_iff_exists.mp succeeds
  obtain ⟨compiled, answered, same⟩ := Option.bind_eq_some_iff.mp found
  cases Compiled.single?_eq_some.mp same
  have widens := TypeSpec.Widens.named "either" false false
  obtain ⟨answers, settles⟩ := (nullable_keeps_other_documents asks flag).2 compiler .jsonSchema (.text "either")
    (.text "either?") _ _ schema (toOption_eq_some.mp (by decide +kernel)) (toOption_eq_some.mp (by decide +kernel)) widens
    (toOption_eq_some.mp answered)
  have own := settles built formed
  obtain ⟨widened, answeredToo, tables, means⟩ := answers own
  exact ⟨flag, widens, built, formed, schema, widened, toOption_eq_some.mp answered, answeredToo, own, tables, means⟩

end Compiler

end Schemata
