import Schemata.Proofs.CatalogGrowth
import Schemata.Proofs.SessionTables
import Schemata.Proofs.WrittenSchemas

/-! Properties of single schemas that nothing done to schemas loses. If a property is closed under what
the compiler does, and the fragments it is given have it, then all that it answers and stores has it,
whatever was asked of it before. -/

namespace Schemata

/-- A property that a schema keeps, or has from the start, in every step that builds one. References
are left out: which of them have the property can depend on what the table holds. -/
structure Setting.Closed (setting : Setting) (property : Schema → Prop) : Prop where
  object : property .object
  choice (values : List String) : property (.choice (.texts values))
  array {items : Schema} : property items → property (.array items)
  oneOf {alternatives : List Schema} : (∀ item ∈ alternatives, property item) → property (.oneOf alternatives)
  product {members : List (String × Schema)} (required : List Value) (title description : Option Value) :
    (∀ item ∈ members.map Prod.snd, property item) →
    property (CompiledField.body (.members members) required title description)
  map {values keywords : Schema} : property values →
    Schema.object.set "additionalProperties" (.schema values) = .ok keywords → property keywords
  annotated {key : String} {value : Option Value} {schema changed : Schema} :
    key ∈ ["title", "description", "example"] → property schema →
    schema.annotate key value = .ok changed → property changed
  widened {nullable : Bool} {schema changed : Schema} : property schema →
    setting.widened nullable schema = .ok changed → property changed

def Definition.Gives (property : Schema → Prop) : Definition → Prop
  | .scalar _ fragment => property (.ofRecord fragment)
  | _ => True

/-- Of an object that nobody has checked nothing is known. -/
def Entry.Gives (property : Schema → Prop) : Entry → Prop
  | .checked definition => definition.Gives property
  | .handwritten _ => False

/-- Objects that nobody has checked are refused when they are given themselves. -/
def Referent.Gives (property : Schema → Prop) : Referent → Prop
  | .entry (.checked definition) => definition.Gives property
  | .entry (.handwritten _) | .written _ => True

def Catalog.Gives (property : Schema → Prop) (catalog : Catalog) : Prop :=
  ∀ entry ∈ catalog.toList, entry.Gives property

def Registry.Gives (property : Schema → Prop) (registry : Registry) : Prop :=
  ∀ name fragment, (name, fragment) ∈ registry.fragments → property (.ofValue fragment)

def Action.Gives (property : Schema → Prop) : Action → Prop
  | .compile given _ | .compileParameters given _ => given.Gives property
  | .registerType _ entry => entry.Gives property
  | .registerPrimitive _ fragment => property (.ofValue fragment)

section Imp

variable {property other : Schema → Prop} (implies : ∀ schema, property schema → other schema)

include implies

theorem Definition.Gives.imp {definition : Definition} (gives : definition.Gives property) :
    definition.Gives other := by
  cases definition with
  | scalar => exact implies _ gives
  | product | sum | map | union | input => trivial

theorem Entry.Gives.imp {entry : Entry} (gives : entry.Gives property) : entry.Gives other := by
  cases entry with
  | checked => exact Definition.Gives.imp implies gives
  | handwritten => exact gives.elim

theorem Referent.Gives.imp {given : Referent} (gives : given.Gives property) : given.Gives other := by
  cases given with
  | written => trivial
  | entry entry =>
    cases entry with
    | checked => exact Definition.Gives.imp implies gives
    | handwritten => trivial

theorem Action.Gives.imp {action : Action} (gives : action.Gives property) : action.Gives other := by
  cases action with
  | compile given mode | compileParameters given mode => exact Referent.Gives.imp implies gives
  | registerType identifier entry => exact Entry.Gives.imp implies gives
  | registerPrimitive name fragment => exact implies _ gives

end Imp

theorem Definition.eq_scalar {definition : Definition} {fragment : Value}
    (scalar : (Entry.checked definition).kind? = some .scalar) (read : (Entry.checked definition).fragment = .ok fragment) :
    ∃ name record, definition = .scalar name record ∧ fragment = .record record := by
  cases definition with
  | scalar name record => cases read; exact ⟨name, record, rfl, rfl⟩
  | product | sum | map | union | input => cases scalar

theorem Entry.Gives.fragment {property : Schema → Prop} {entry : Entry} {fragment : Value} (gives : entry.Gives property)
    (scalar : entry.kind? = some .scalar) (read : entry.fragment = .ok fragment) : property (.ofValue fragment) := by
  cases entry with
  | handwritten => exact gives.elim
  | checked definition =>
    obtain ⟨name, record, rfl, rfl⟩ := Definition.eq_scalar scalar read
    rw [Schema.ofValue_record]
    exact gives

def Compiled.schemas : Compiled → List Schema
  | .single schema => [schema]
  | .parameters records => records.map (·.schema)

theorem forall_of_forall₂ {related : α → β → Prop} {property : β → Prop} {items : List α} {values : List β}
    (all : List.Forall₂ related items values) (implies : ∀ item value, related item value → property value) :
    ∀ value ∈ values, property value := by
  induction all with
  | nil => exact nofun
  | cons first rest ih =>
    intro value member
    rcases List.mem_cons.mp member with rfl | later
    · exact implies _ _ first
    · exact ih value later

section Bodies

variable {setting : Setting} {property : Schema → Prop} {shows : TypeSpec → Schema → Prop}
  {stands : Entry → Schema → Prop}

theorem Setting.Closed.described (closed : setting.Closed property) {title description : Option Value}
    {schema changed : Schema} (own : property schema) (done : schema.described title description = .ok changed) :
    property changed := by
  obtain ⟨middle, titled, described⟩ := Schema.described_eq_ok.mp done
  exact closed.annotated (by simp) (closed.annotated (by simp) own titled) described

/-- The schema of a field has a property of all references if choices have it, and if it is kept where null is admitted
to a choice and where titles and descriptions are set. -/
theorem Setting.ShowsField.keeps {field : Field} {compiled : CompiledField String}
    (shown : setting.ShowsField shows field compiled) (all : ∀ spec schema, shows spec schema → property schema)
    (choice : ∀ values, field.override? = some values → property (.choice (.texts values)))
    (nullable : ∀ schema changed, property schema → schema.nullable? setting.dialect.flagged = .ok changed →
      property changed)
    (described : ∀ schema changed, property schema →
      schema.described (givenText? field.title) (givenText? field.description) = .ok changed → property changed) :
    property compiled.schema := by
  obtain ⟨spec, schema, changed, -, typed, annotated, rfl⟩ := shown
  refine described schema changed ?_ annotated
  unfold ShowsType at typed
  split at typed
  next values given =>
    unfold widened at typed
    split at typed
    · exact nullable _ schema (choice values given) typed
    · cases typed
      exact choice values given
  next => exact all spec schema typed

/-- Each property of a product is the schema of one of its fields. -/
theorem CompiledField.forall_properties (property : Schema → Prop) {related : Field → CompiledField String → Prop} {fields : List Field}
    {compiled : List (CompiledField String)} (shown : List.Forall₂ related fields compiled)
    (keeps : ∀ field compiled, related field compiled → property compiled.schema) :
    ∀ item ∈ Record.ofList (compiled.map fun field => (field.name, field.schema)), property item.2 := by
  intro item member
  obtain ⟨field, present, rfl⟩ := List.mem_map.mp (Record.mem_ofList member)
  exact forall_of_forall₂ shown keeps field present

/-- A body has the property if the schemas of its references do. -/
theorem Setting.ShowsBody.keeps {definition : Definition} {body : Schema} (closed : setting.Closed property)
    (gives : definition.Gives property) (shown : setting.ShowsBody shows definition body)
    (all : ∀ spec schema, shows spec schema → property schema) : property body := by
  cases definition with
  | scalar name fragment => cases shown; exact gives
  | sum name values => cases shown; exact closed.choice values
  | input => exact shown.elim
  | product name fields title description contentType =>
    obtain ⟨compiled, shown, rfl⟩ := shown
    refine closed.product _ _ _ (List.forall_mem_map.mpr (CompiledField.forall_properties _ shown fun field compiled own => ?_))
    refine Setting.ShowsField.keeps own all (fun values _ => closed.choice values) (fun schema changed own done => ?_)
      fun schema changed => closed.described
    have widened : setting.widened true schema = .ok changed := done
    exact closed.widened own widened
  | map name valueType sample =>
    obtain ⟨keywords, shown, annotated⟩ := shown
    refine closed.annotated (by simp) ?_ annotated
    cases valueType with
    | none =>
      cases show keywords = .object from shown
      exact closed.object
    | some type =>
      obtain ⟨values, ⟨spec, -, typed⟩, done⟩ := shown
      exact closed.map (all spec values typed) done
  | union name alternatives =>
    obtain ⟨schemas, shown, rfl⟩ := shown
    exact closed.oneOf (forall_of_forall₂ shown fun type schema ⟨spec, _, typed⟩ => all spec schema typed)

theorem Setting.ShowsEntry.keeps {kind : Kind} {entry : Entry} {body : Schema} (closed : setting.Closed property)
    (gives : entry.Gives property) (shown : setting.ShowsEntry shows kind entry body)
    (all : ∀ spec schema, shows spec schema → property schema) : property body := by
  cases entry with
  | handwritten => exact gives.elim
  | checked definition => exact Setting.ShowsBody.keeps closed gives shown all

theorem ShowsParameters.keeps {entry : Entry} {records : List (ParameterRecord Schema)}
    (shown : ShowsParameters shows entry records) (all : ∀ spec schema, shows spec schema → property schema) :
    ∀ record ∈ records, property record.schema := by
  cases entry with
  | handwritten shape =>
    obtain ⟨members, -, shown⟩ := shown
    refine forall_of_forall₂ shown ?_
    intro member record own
    obtain ⟨_, _, spec, _, schema, -, -, -, typed, rfl⟩ := own
    exact all spec schema typed
  | checked definition =>
    cases definition with
    | scalar | product | sum | map | union => exact shown.elim
    | input name parameters =>
      refine forall_of_forall₂ shown ?_
      intro parameter record own
      obtain ⟨location, spec, schema, -, typed, rfl⟩ := own
      exact all spec schema typed

/-- An answer has the property if the schemas of its references do, and the fragment that it may be. -/
theorem Setting.Answers.keeps {given : Referent} {compiled : Compiled}
    (answers : setting.Answers shows stands given compiled)
    (fragment : ∀ name record, given = .entry (.checked (.scalar name record)) → property (.ofRecord record))
    (all : ∀ spec schema, shows spec schema → property schema)
    (stood : ∀ entry schema, stands entry schema → property schema) :
    ∀ schema ∈ compiled.schemas, property schema := by
  have single {schema : Schema} (own : property schema) :
      ∀ other ∈ (Compiled.single schema).schemas, property other := by
    simpa [Compiled.schemas] using own
  have records {records : List (ParameterRecord Schema)} (every : ∀ record ∈ records, property record.schema) :
      ∀ schema ∈ (Compiled.parameters records).schemas, property schema := by
    simpa [Compiled.schemas] using every
  cases answers with
  | reference read shown => exact single (all _ _ shown)
  | input read classified shown => exact records (shown.keeps all)
  | parameters shown => exact records (shown.keeps all)
  | fragment => exact single (fragment _ _ rfl)
  | type named stands => exact single (stood _ _ stands)

end Bodies

namespace Compiler

/-- What a compiler holds after an action that it did not hold before was given by the action. -/
theorem act_given (compiler : Compiler) (action : Action) :
    (∀ entry ∈ (compiler.act action).catalog.toList, entry ∈ compiler.catalog.toList ∨
      ∃ identifier, action = .registerType identifier entry) ∧
    ∀ name fragment, (name, fragment) ∈ (compiler.act action).registry.fragments →
      (name, fragment) ∈ compiler.registry.fragments ∨ action = .registerPrimitive name fragment := by
  have taken := compiler.step action
  generalize compiler.act action = after at taken ⊢
  generalize compiler.answer action = answer at taken
  cases taken with
  | failed | refused => exact ⟨fun _ => .inl, fun _ _ => .inl⟩
  | answered call succeeded =>
    obtain ⟨progress, -, same⟩ := compile_ok succeeded
    rw [same]
    exact ⟨fun _ => .inl, fun _ _ => .inl⟩
  | registered accepted =>
    refine ⟨fun entry held => ?_, fun _ _ => .inl⟩
    obtain ⟨chosen, name, -, -, -, grown, -⟩ := Catalog.register_ok accepted
    rw [Catalog.toList, grown, List.map_append, List.mem_append] at held
    refine held.imp_right fun new => ?_
    cases List.mem_singleton.mp new
    exact ⟨_, rfl⟩
  | primitive =>
    refine ⟨fun _ => .inl, fun name fragment member => ?_⟩
    rcases Record.mem_set member with same | old
    · cases same
      exact .inr rfl
    · exact .inl old

end Compiler

end Schemata
