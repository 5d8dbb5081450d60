import Schemata.Proofs.SchemaAgreement
import Schemata.Proofs.UnfoldedAnswers

/-! Hoisting keeps the meaning of schemas. A reference that may be null is written in two ways: with types written
out, null is admitted by the body of the type; when hoisting, beside a reference to it. Both mean the same where the
body keeps null apart from all else. -/

namespace Schemata

open Value (asks asksPlainly meets verdicts declares)

def TypeSpec.isNullableInside : TypeSpec → Bool
  | .named _ _ nullable => nullable
  | .array element _ _ => element.isNullableInside

/-- The references that are met from one on, through the definitions that they denote. -/
inductive Catalog.Touches (catalog : Catalog) (registry : Registry) : TypeSpec → TypeSpec → Prop where
  | self (spec : TypeSpec) : Touches catalog registry spec spec
  | inner {spec next other : TypeSpec} {definition : Definition} (denotes : catalog.Denotes registry spec definition)
      (mentions : definition.Mentions next) (later : Touches catalog registry next other) :
      Touches catalog registry spec other

namespace Schema

variable {reader : Reader} {refers : Value → Value → Bool}

theorem admits_null (document : Value) : null.toValue.admits reader refers document = document.isNull := by
  cases document <;> rfl

theorem admits_reference (base name : String) (document : Value) :
    (reference base name).toValue.admits reader refers document = refers (.text (base ++ name)) document :=
  Bool.and_true _

/-- Beside a reference null is admitted only by what does not admit it. -/
theorem admits_nullable_reference {base name : String} {schema : Schema}
    (done : (reference base name).nullable? false = .ok schema) (document : Value) :
    schema.toValue.admits reader refers document = (refers (.text (base ++ name)) document != document.isNull) := by
  obtain rfl : schema = oneOf [reference base name, null] := by
    cases done
    rfl
  have both : (oneOf [reference base name, null]).toValue.admits reader refers document =
      ((verdicts reader refers [(reference base name).toValue, null.toValue] document).count true == 1 && true) := rfl
  rw [both, verdicts, verdicts, verdicts, admits_reference, admits_null]
  cases refers (.text (base ++ name)) document <;> cases document.isNull <;> rfl

/-- What asks nothing of null but its type, which is another one, admits it once it is widened. -/
theorem admits_nullable_typed {kind : String} {rest : Parts} {schema : Schema} (other : kind ≠ "null")
    (free : ∀ declared, meets reader refers declared (entries rest) .null = true)
    (done : (keywords (("type", .data (.text kind)) :: rest)).nullable? false = .ok schema) (document : Value) :
    schema.toValue.admits reader refers document =
      ((keywords (("type", .data (.text kind)) :: rest)).toValue.admits reader refers document != document.isNull) := by
  have widened : schema = keywords (("type", .data (.list [.text kind, .text "null"])) :: rest) := by
    rw [nullable?_keywords, show Record.has (("type", _) :: rest) "type" = true from rfl] at done
    cases found : Record.find? (("type", .data (.text kind)) :: rest) "oneOf" <;> rw [found] at done <;> cases done <;> rfl
  subst widened
  have beside (value : Value) : (keywords (("type", .data value) :: rest)).toValue.admits reader refers document =
      (asksPlainly reader refers "type" value document &&
        meets reader refers (declares reader (entries rest)) (entries rest) document) := by
    rw [toValue, Value.admits, entries, meets, show Keyword.of "type" = .plain from rfl, asks_plain]
    rfl
  have either : asksPlainly reader refers "type" (.list [.text kind, .text "null"]) document =
      (Value.hasType kind document || document.isNull) := by
    rw [← Value.hasType_null]
    simp only [asksPlainly, List.any_cons, List.any_nil, Bool.or_false]
  have alone : asksPlainly reader refers "type" (.text kind) document = Value.hasType kind document := rfl
  rw [beside, beside, either, alone]
  cases null : document.isNull with
  | false => rw [Bool.or_false, Bool.bne_false]
  | true =>
    cases Value.eq_null_of_isNull null
    rw [free, Value.hasType_of_null other]
    rfl

/-- Nothing that an object says asks anything of null. -/
theorem meets_ofObject (lenient : reader.IsLenient) {parts : Parts} (object : ∀ entry ∈ parts, OfObject entry)
    (declared : String → Bool) : meets reader refers declared (entries parts) .null = true := by
  apply meets_of_each
  intro entry member
  cases object entry member with
  | properties | required => rfl
  | additional schema => cases value : schema.toValue <;> simp only [partValue, value] <;> rfl
  | documentation known part => exact asks_documentation lenient known declared _ .null

theorem admits_oneOf (alternatives : List Schema) (document : Value) :
    (oneOf alternatives).toValue.admits reader refers document =
      ((alternatives.map fun schema => schema.toValue.admits reader refers document).count true == 1) := by
  have shown : (oneOf alternatives).toValue.admits reader refers document =
      ((verdicts reader refers (values alternatives) document).count true == 1) := Bool.and_true _
  rw [shown, Value.verdicts_eq_map, values_eq_map, List.map_map]
  rfl

/-- Among alternatives of which at most one admits null, null as one more makes the same difference. -/
private theorem admits_nullable_union {alternatives : List Schema} {schema : Schema}
    (apart : (alternatives.map fun alternative => alternative.toValue.admits reader refers .null).count true ≤ 1)
    (done : (oneOf alternatives).nullable? false = .ok schema) (document : Value) :
    schema.toValue.admits reader refers document =
      ((oneOf alternatives).toValue.admits reader refers document != document.isNull) := by
  obtain rfl : schema = oneOf (alternatives ++ [null]) := by
    cases done
    rfl
  rw [admits_oneOf, admits_oneOf, List.map_append, List.count_append, List.map_singleton, admits_null]
  cases document with
  | null =>
    generalize (alternatives.map fun alternative => alternative.toValue.admits reader refers .null).count true = count at apart ⊢
    obtain rfl | rfl : count = 0 ∨ count = 1 := by omega
    all_goals rfl
  | _ => simp [Value.isNull]

end Schema

namespace Setting

variable (setting : Setting) (reader : Reader) (refers : Value → Value → Bool)

/-- Null can be put in the body of a type or beside a reference to it. That makes a difference for alternatives that
are texts, and for alternatives two of which admit null. -/
def SeparatesNull : Definition → Prop
  | .sum .. => False
  | .union _ alternatives => ∀ schemas, List.Forall₂ (ShowsReference setting.Inlines) alternatives schemas →
    (schemas.map fun schema => schema.toValue.admits reader refers .null).count true ≤ 1
  | _ => True

variable {setting reader refers}

theorem ShowsBody.admits_nullable {definition : Definition} {body schema : Schema} (lenient : reader.IsLenient)
    (named : definition.kind.isNamed = true) (shown : setting.ShowsBody setting.Inlines definition body)
    (apart : setting.SeparatesNull reader refers definition) (done : body.nullable? false = .ok schema) (document : Value) :
    schema.toValue.admits reader refers document = (body.toValue.admits reader refers document != document.isNull) := by
  have object (kind : definition.kind = .product ∨ definition.kind = .map) :
      schema.toValue.admits reader refers document = (body.toValue.admits reader refers document != document.isNull) := by
    obtain ⟨rest, rfl, parts⟩ := ShowsBody.exists_object_eq kind shown
    exact Schema.admits_nullable_typed (by decide) (Schema.meets_ofObject lenient parts) done document
  cases definition with
  | scalar | input => cases named
  | sum => exact apart.elim
  | product => exact object (.inl rfl)
  | map => exact object (.inr rfl)
  | union name alternatives =>
    obtain ⟨schemas, all, rfl⟩ := shown
    exact Schema.admits_nullable_union (apart schemas all) done document

variable (setting reader refers) in
/-- A reference that may be null is to a type that keeps null apart. -/
def Fair (spec : TypeSpec) : Prop :=
  spec.isNullableInside = true → ∀ definition, setting.catalog.Denotes setting.registry spec definition →
    setting.SeparatesNull reader refers definition

variable {unresolved : Value → Value → Bool}

private theorem agrees_array (unflagged : setting.dialect.flagged = false) {nullable : Bool}
    {items itemsToo schema other : Schema} (agrees : Schema.Agrees reader refers unresolved items itemsToo)
    (here : setting.widened nullable (.array items) = .ok schema)
    (there : setting.widened nullable (.array itemsToo) = .ok other) :
    Schema.Agrees reader refers unresolved schema other := by
  unfold Setting.widened at here there
  rw [unflagged] at here there
  cases nullable with
  | false =>
    cases here
    cases there
    exact agrees.array _
  | true =>
    cases here
    cases there
    exact agrees.array _

/-- A reference that leads to a body agrees with the body, whether or not null is admitted beside the one and inside the
other. -/
private theorem agrees_reference (lenient : reader.IsLenient) (unflagged : setting.dialect.flagged = false)
    {definition : Definition} {body schema other : Schema} {nullable : Bool} (named : definition.kind.isNamed = true)
    (shown : setting.ShowsBody setting.Inlines definition body)
    (apart : nullable = true → setting.SeparatesNull reader unresolved definition)
    (here : setting.widened nullable (.reference setting.dialect.base definition.name) = .ok schema)
    (there : setting.widened nullable body = .ok other)
    (follows : ∀ document, refers (.text (setting.dialect.base ++ definition.name)) document =
      body.toValue.admits reader unresolved document) : Schema.Agrees reader refers unresolved schema other := by
  have object := (shown.isWidenable named).1
  cases nullable with
  | false =>
    cases here
    cases there
    exact ⟨fun document => (Schema.admits_reference _ _ document).trans (follows document), .inr ⟨trivial, object⟩⟩
  | true =>
    rw [Setting.widened, if_pos rfl, unflagged] at here there
    cases body with
    | data value => exact object.elim
    | keywords parts =>
      obtain ⟨others, rfl⟩ := Schema.keywords_of_nullable? there
      refine ⟨fun document => ?_, .inr ⟨?_, trivial⟩⟩
      · rw [Schema.admits_nullable_reference here, shown.admits_nullable lenient named (apart rfl) there]
        exact congrArg (· != _) (follows document)
      · cases here
        trivial

variable {table : Table} {assumed : Value → Value → Bool}

/-- Given enough depth, the schema that hoisting has for a reference agrees with the one written out. -/
theorem Inlines.agrees (lenient : reader.IsLenient) (unflagged : setting.dialect.flagged = false)
    (built : setting.catalog.OfDefinitions) (catalogFree : setting.catalog.IsReferenceFree)
    (registryFree : setting.registry.IsReferenceFree)
    (stored : ∀ entry ∈ table, setting.hoisted.Stores (· ∈ Record.names table) entry.1 entry.2) {spec : TypeSpec}
    {schema other : Schema} (inlines : setting.Inlines spec other)
    (settled : setting.hoisted.Settled (· ∈ Record.names table) spec schema)
    (fair : ∀ next, setting.catalog.Touches setting.registry spec next → setting.Fair reader unresolved next) :
    ∀ᶠ depth in Filter.atTop,
      Schema.Agrees reader (table.follows setting.dialect reader assumed depth) unresolved schema other := by
  revert fair
  refine inlines.induction_beside built stored (motive := fun spec schema other =>
    (∀ next, setting.catalog.Touches setting.registry spec next → setting.Fair reader unresolved next) →
    ∀ᶠ depth in Filter.atTop,
      Schema.Agrees reader (table.follows setting.dialect reader assumed depth) unresolved schema other) ?_ ?_ ?_ settled
  · intro name value required nullable schema supplies widened fair
    have free := hasKey_of_supplies catalogFree registryFree supplies
    have sound : schema.Sound setting.dialect.base fun _ => False :=
      setting.widened_sound (Schema.sound_ofValue free) widened
    exact .of_forall fun depth => sound.agrees
  · intro element required nullable items itemsToo schema other inner here there fair
    have fairToo (next : TypeSpec) (touches : setting.catalog.Touches setting.registry element next) :
        setting.Fair reader unresolved next := by
      cases touches with
      | self =>
        have whole : setting.Fair reader unresolved (.array element required nullable) := fair _ (.self _)
        exact whole
      | inner denotes mentions later => exact fair next (.inner denotes mentions later)
    filter_upwards [inner fairToo] with depth own
    exact agrees_array unflagged own here there
  · intro name required nullable definition stand body schema other denotes kind resolved shown pairs here there fair
    have pairs : Schema.Pairs (fun one two => ∀ᶠ depth in Filter.atTop,
        Schema.Agrees reader (table.follows setting.dialect reader assumed depth) unresolved one two) stand body := by
      apply pairs
      · intro next one two mentions settled inner
        exact inner fun further touches => fair further (.inner denotes mentions touches)
      · intro nullable values schema done
        have sound : schema.Sound setting.dialect.base fun _ => False := setting.widened_sound Schema.sound_choice done
        exact .of_forall fun depth => sound.agrees
    have bodies : ∀ᶠ depth in Filter.atTop, ∀ document, table.admits setting.dialect reader assumed depth stand.toValue document =
        body.toValue.admits reader unresolved document := by
      apply Table.eventually_admits
      filter_upwards [pairs.eventually] with depth all
      exact (all.agrees lenient).admits
    filter_upwards [bodies] with depth same
    have follows (document : Value) :
        table.follows setting.dialect reader assumed depth (.text (setting.dialect.base ++ definition.name)) document =
          body.toValue.admits reader unresolved document := by
      rw [Table.follows, resolved]
      exact same document
    exact agrees_reference lenient unflagged kind shown (fun null => fair _ (.self _) null definition denotes) here there follows

end Setting

namespace Compiler

/-- Without hoisting every type is written out where it occurs. Hoisting then admits the same documents, if what is
written on a schema for people asks nothing of a document and references that may be null keep null apart. -/
theorem hoisting_keeps_meaning (catalog : Catalog) (registry : Registry) (own mode : Mode) (base? : Option String)
    (value : Value) (reader : Reader) (unresolved : Value → Value → Bool) (built : catalog.OfDefinitions)
    (catalogFree : catalog.IsReferenceFree) (registryFree : registry.IsReferenceFree) (lenient : reader.IsLenient)
    (unflagged : mode.isFlagged = false) (inline : mode.isHoisting = false)
    (fair : ∀ spec next, TypeSpec.read false value = .ok spec → catalog.Touches registry spec next →
      ((new catalog registry own base?).setting mode).Fair reader unresolved next) (schema : Schema)
    (answered : ((new catalog registry own base?).compile (.written value) mode).outcome = .ok (.single schema)) :
    let compiler := new catalog registry own base?
    let hoisting := mode.union .refSchema
    let call := compiler.compile (.written value) hoisting
    ∃ hoisted, call.outcome = .ok (.single hoisted) ∧ ∀ assumed, ∃ depth, ∀ more ≥ depth, ∀ document,
      (call.compiler.schemasFor hoisting).admits (compiler.dialect hoisting) reader assumed more hoisted.toValue document =
        schema.toValue.admits reader unresolved document := by
  intro compiler hoisting call
  obtain ⟨compiled, table, _, _, succeeds, schemas, stored, written, answers⟩ := compile_both built inline answered
  rw [schemas, dialect_union_refSchema]
  cases written with
  | @reference _ spec _ read inlines =>
    cases answers with
    | @reference _ _ hoisted again settled =>
      cases read.symm.trans again
      refine ⟨hoisted, succeeds, fun assumed => Filter.eventually_atTop.mp (Table.eventually_admits ?_)⟩
      have agrees : ∀ᶠ depth in Filter.atTop, Schema.Agrees reader
          (table.follows (compiler.dialect mode) reader assumed depth) unresolved hoisted schema :=
        inlines.agrees lenient unflagged built catalogFree registryFree stored settled fun next => fair spec next read
      filter_upwards [agrees] with depth own
      exact own.admits
    | input again classified =>
      cases read.symm.trans again
      exact absurd classified (Setting.WritesOut.noInput inlines)

/-- An address that may be null, with a title of its own, and a map of addresses. -/
theorem hoisting_keeps_meaning_of_order :
    let address : Definition := .product "Address" [⟨"street", .text "!string", none, none, none⟩] (some "Place") none
      "application/json"
    let book : Definition := .map "Book" (some (.text "address?")) []
    let order : Definition := .product "Order"
      [⟨"billing", .text "address?", some "Billing", none, none⟩, ⟨"known", .text "book", none, none, none⟩]
      none none "application/json"
    let catalog : Catalog :=
      ⟨[("address", .checked address), ("book", .checked book), ("order", .checked order)],
        [(.text "Address", "address"), (.text "Book", "book"), (.text "Order", "order")]⟩
    let reader : Reader := { equal := fun _ _ => false, covers := fun _ _ => false, asks := fun _ _ _ => true }
    let unresolved : Value → Value → Bool := fun _ _ => false
    let compiler := new catalog .builtins .jsonSchema none
    let hoisting := Mode.jsonSchema.union .refSchema
    let call := compiler.compile (.written (.text "order")) hoisting
    catalog.OfDefinitions ∧ catalog.IsReferenceFree ∧ Registry.builtins.IsReferenceFree ∧ reader.IsLenient ∧
      Mode.jsonSchema.isFlagged = false ∧ Mode.jsonSchema.isHoisting = false ∧
      (∀ spec next, TypeSpec.read false (.text "order") = .ok spec → catalog.Touches .builtins spec next →
        (compiler.setting .jsonSchema).Fair reader unresolved next) ∧
      ∃ schema hoisted, (compiler.compile (.written (.text "order")) .jsonSchema).outcome = .ok (.single schema) ∧
        call.outcome = .ok (.single hoisted) ∧ ∀ assumed, ∃ depth, ∀ more ≥ depth, ∀ document,
          (call.compiler.schemasFor hoisting).admits (compiler.dialect hoisting) reader assumed more hoisted.toValue
            document = schema.toValue.admits reader unresolved document := by
  intro address book order catalog reader unresolved compiler hoisting call
  have built : catalog.OfDefinitions :=
    Catalog.OfDefinitions.empty.register_all [("address", address), ("book", book), ("order", order)] rfl
  have known {entry : Entry} (held : entry ∈ catalog.toList) :
      entry = .checked address ∨ entry = .checked book ∨ entry = .checked order := by
    simpa [Catalog.toList, catalog] using held
  have free : catalog.IsReferenceFree := by
    intro entry held
    rcases known held with rfl | rfl | rfl <;> trivial
  have lenient : reader.IsLenient := fun _ _ _ _ => rfl
  -- There are only objects.
  have fair (spec next : TypeSpec) (_ : TypeSpec.read false (.text "order") = .ok spec)
      (_ : catalog.Touches .builtins spec next) : (compiler.setting .jsonSchema).Fair reader unresolved next := by
    intro _ definition denotes
    rcases known denotes.held with same | same | same <;> obtain rfl := Entry.checked.inj same <;> trivial
  have single : ∃ schema, (compiler.compile (.written (.text "order")) .jsonSchema).outcome = .ok (.single schema) := by
    have succeeds : ((compiler.compile (.written (.text "order")) .jsonSchema).outcome.toOption.bind
        Compiled.single?).isSome = true := by
      decide +kernel
    obtain ⟨schema, found⟩ := Option.isSome_iff_exists.mp succeeds
    obtain ⟨compiled, answered, same⟩ := Option.bind_eq_some_iff.mp found
    cases Compiled.single?_eq_some.mp same
    exact ⟨_, toOption_eq_some.mp answered⟩
  obtain ⟨schema, answered⟩ := single
  obtain ⟨hoisted, called, means⟩ := hoisting_keeps_meaning catalog .builtins .jsonSchema .jsonSchema none
    (.text "order") reader unresolved built free Registry.builtins_isReferenceFree lenient rfl rfl fair schema answered
  exact ⟨built, free, Registry.builtins_isReferenceFree, lenient, rfl, rfl, fair, schema, hoisted, answered, called, means⟩

/-- Both schemas of a reference are there, and they do not agree on a document. -/
def ChangesMeaning (compiler : Compiler) (value : Value) (mode : Mode) (reader : Reader)
    (unresolved : Value → Value → Bool) (document : Value) : Prop :=
  let hoisting := mode.union .refSchema
  let call := compiler.compile (.written value) hoisting
  ∃ schema hoisted, (compiler.compile (.written value) mode).outcome = .ok (.single schema) ∧
    call.outcome = .ok (.single hoisted) ∧ ∃ depth, ∀ assumed, ∀ more ≥ depth,
      (call.compiler.schemasFor hoisting).admits (compiler.dialect hoisting) reader assumed more hoisted.toValue document ≠
        schema.toValue.admits reader unresolved document

def changesMeaning (compiler : Compiler) (value : Value) (mode : Mode) (reader : Reader)
    (unresolved : Value → Value → Bool) (document : Value) (depth : Nat) : Bool :=
  let hoisting := mode.union .refSchema
  let call := compiler.compile (.written value) hoisting
  match (compiler.compile (.written value) mode).outcome, call.outcome with
  | .ok (.single schema), .ok (.single hoisted) =>
    let table := call.compiler.schemasFor hoisting
    let dialect := compiler.dialect hoisting
    table.endsBefore dialect.base depth hoisted.toValue &&
      table.admits dialect reader (fun _ _ => false) depth hoisted.toValue document !=
        schema.toValue.admits reader unresolved document
  | _, _ => false

theorem changesMeaning_of_found {compiler : Compiler} {value : Value} {mode : Mode} {reader : Reader}
    {unresolved : Value → Value → Bool} {document : Value} {depth : Nat}
    (found : compiler.changesMeaning value mode reader unresolved document depth = true) :
    compiler.ChangesMeaning value mode reader unresolved document := by
  unfold changesMeaning at found
  dsimp only at found
  split at found
  · next schema hoisted answered called =>
    obtain ⟨ends, differ⟩ := Bool.and_eq_true_iff.mp found
    refine ⟨schema, hoisted, answered, called, depth, fun assumed more later => ?_⟩
    rw [Table.admits_of_endsBefore ends later document]
    exact bne_iff_ne.mp differ
  · cases found

/-- Null is none of the texts of a sum, and two alternatives that admit it are too many. Whatever is written on a schema
for people may ask something of a document, and a fragment may refer to something on its own. -/
theorem hoisting_changes_meaning :
    let color : Definition := .sum "Color" ["red"]
    let either : Definition := .union "Either" [.text "string?", .text "integer?"]
    let counts : Definition := .map "Counts" none [("one", .int 1)]
    let inner : Definition := .product "Inner" [] (some "Inside") none "application/json"
    let outer : Definition := .product "Outer" [⟨"part", .text "inner", some "Part", none, none⟩] none none "application/json"
    let mark : Definition := .scalar "Mark" [("$ref", .text "#/definitions/Color")]
    let pair : Definition := .product "Pair"
      [⟨"mark", .text "mark", none, none, none⟩, ⟨"color", .text "color", none, none, none⟩] none none "application/json"
    let catalog : Catalog :=
      ⟨[("color", .checked color), ("either", .checked either), ("counts", .checked counts), ("inner", .checked inner),
          ("outer", .checked outer), ("mark", .checked mark), ("pair", .checked pair)],
        [(.text "Color", "color"), (.text "Either", "either"), (.text "Counts", "counts"), (.text "Inner", "inner"),
          (.text "Outer", "outer"), (.text "Mark", "mark"), (.text "Pair", "pair")]⟩
    let asking (asks : String → Value → Value → Bool) : Reader :=
      { equal := fun _ _ => false, covers := fun _ _ => false, asks }
    let lenient := asking fun _ _ _ => true
    let titled := asking fun name value _ => name != "title" || value.isText "Part"
    let exemplary := asking fun name _ document => name != "example" || !document.isNull
    let compiler := new catalog .builtins .jsonSchema none
    let unresolved : Value → Value → Bool := fun _ _ => true
    catalog.OfDefinitions ∧ Mode.jsonSchema.isFlagged = false ∧ Mode.jsonSchema.isHoisting = false ∧
      compiler.ChangesMeaning (.text "color?") .jsonSchema lenient unresolved .null ∧
      compiler.ChangesMeaning (.text "either?") .jsonSchema lenient unresolved .null ∧
      compiler.ChangesMeaning (.text "outer") .jsonSchema titled unresolved (.map [(.text "part", .map [])]) ∧
      compiler.ChangesMeaning (.text "counts?") .jsonSchema exemplary unresolved .null ∧
      compiler.ChangesMeaning (.text "pair") .jsonSchema lenient unresolved (.map [(.text "mark", .int 5)]) := by
  intro color either counts inner outer mark pair catalog asking lenient titled exemplary compiler unresolved
  have built : catalog.OfDefinitions :=
    Catalog.OfDefinitions.empty.register_all [("color", color), ("either", either), ("counts", counts), ("inner", inner),
      ("outer", outer), ("mark", mark), ("pair", pair)] rfl
  refine ⟨built, rfl, rfl, ?_, ?_, ?_, ?_, ?_⟩
  · have found : compiler.changesMeaning (.text "color?") .jsonSchema lenient unresolved .null 3 = true := by decide +kernel
    exact changesMeaning_of_found found
  · have found : compiler.changesMeaning (.text "either?") .jsonSchema lenient unresolved .null 3 = true := by decide +kernel
    exact changesMeaning_of_found found
  · have found : compiler.changesMeaning (.text "outer") .jsonSchema titled unresolved (.map [(.text "part", .map [])]) 4 =
        true := by decide +kernel
    exact changesMeaning_of_found found
  · have found : compiler.changesMeaning (.text "counts?") .jsonSchema exemplary unresolved .null 3 = true := by
      decide +kernel
    exact changesMeaning_of_found found
  · have found : compiler.changesMeaning (.text "pair") .jsonSchema lenient unresolved
        (.map [(.text "mark", .int 5)]) 4 = true := by
      decide +kernel
    exact changesMeaning_of_found found

end Compiler

end Schemata
