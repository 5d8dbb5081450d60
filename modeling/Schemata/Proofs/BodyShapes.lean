import Schemata.Proofs.WalkRules

/-! What the body of a definition looks like when its references are shown in a given way. A walk
through a body that succeeds has built such a body, whatever else it did on the way. The relation
speaks of no table, no chain and no progress: those can only enter through how references are shown. -/

namespace Schemata

/-- The kinds of types that a table can hold. -/
def Kind.isNamed : Kind → Bool
  | .product | .sum | .map | .union => true
  | .scalar | .input => false

/-- The references that a definition makes. A field whose alternatives are given makes none. -/
def Definition.Mentions : Definition → TypeSpec → Prop
  | .product _ fields _ _ _, spec =>
    ∃ field ∈ fields, field.override? = none ∧ TypeSpec.read true field.type = .ok spec
  | .map _ valueType _, spec => ∃ type, valueType = some type ∧ TypeSpec.read false type = .ok spec
  | .union _ alternatives, spec => ∃ type ∈ alternatives, TypeSpec.read false type = .ok spec
  | .input _ parameters, spec =>
    ∃ parameter ∈ parameters, ∃ location, Parameter.readType parameter.type = .ok (location, spec)
  | .scalar .., _ | .sum .., _ => False

/-- The readings of all references of a definition, those of fields whose alternatives are given
among them. -/
def Definition.Reads : Definition → Except Misreading TypeSpec → Prop
  | .product _ fields _ _ _, reading => ∃ field ∈ fields, reading = TypeSpec.read true field.type
  | .map _ valueType _, reading => ∃ type, valueType = some type ∧ reading = TypeSpec.read false type
  | .union _ alternatives, reading => ∃ type ∈ alternatives, reading = TypeSpec.read false type
  | .input _ parameters, reading =>
    ∃ parameter ∈ parameters, reading = (Parameter.readType parameter.type).map Prod.snd
  | .scalar .., _ | .sum .., _ => False

/-- Every reference of the definition can be read where it stands. -/
def Definition.Decodes (definition : Definition) : Prop :=
  ∀ reading, definition.Reads reading → ∃ spec, reading = .ok spec

def Setting.fieldSchema (setting : Setting) (compile : TypeSpec → Walk Schema) (field : Field)
    (spec : TypeSpec) : Walk Schema :=
  match field.override? with
  | some choices => .ofAccess (setting.widened spec.nullable (.choice (.texts choices)))
  | none => compile spec

theorem Setting.field_eq (setting : Setting) (compile : TypeSpec → Walk Schema) (field : Field) :
    setting.field compile field = do
      let spec ← Walk.ofReading (TypeSpec.read true field.type)
      let schema ← setting.fieldSchema compile field spec
      let described ← Walk.ofAccess
        (schema.described (givenText? field.title) (givenText? field.description))
      return ⟨field.name, described, spec.required⟩ := by
  unfold Setting.field Setting.fieldSchema
  cases field.override? <;> simp only [Setting.widen_eq, Walk.describe_eq]

def Walk.mapKeywords (compile : TypeSpec → Walk Schema) (body : Schema) : Option Value → Walk Schema
  | none => pure body
  | some type => do
    let values ← Walk.reference compile type
    Walk.ofAccess (body.set "additionalProperties" (.schema values))

theorem Walk.mapBody_eq (compile : TypeSpec → Walk Schema) (body : Schema)
    (valueType sample : Option Value) : Walk.mapBody compile body valueType sample =
      Walk.mapKeywords compile body valueType >>= fun keywords =>
        Walk.ofAccess (keywords.annotate "example" sample) := by
  unfold Walk.mapBody Walk.mapKeywords
  cases valueType with
  | none => rfl
  | some type => simp only [bind_assoc]

inductive CompiledField.Says (properties : Part Schema) (required : List Value) (title description : Option Value) :
    String → Part Schema → Prop where
  | type : Says properties required title description "type" (.data (.text "object"))
  | properties : Says properties required title description "properties" properties
  | required : Says properties required title description "required" (.data (.list required))
  | title {value : Value} (given : title = some value) :
      Says properties required title description "title" (.data value)
  | description {value : Value} (given : description = some value) :
      Says properties required title description "description" (.data value)

theorem CompiledField.says_of_mem {properties : Part Schema} {required : List Value} {title description : Option Value}
    {parts : Schema.Parts} (same : body properties required title description = .keywords parts) {name : String}
    {part : Part Schema} (member : (name, part) ∈ parts) : Says properties required title description name part := by
  cases same
  simp only [List.mem_append, List.mem_cons, Prod.mk.injEq, List.not_mem_nil, or_false] at member
  rcases member with (((⟨rfl, rfl⟩ | ⟨rfl, rfl⟩) | listed) | listed) | listed
  · exact .type
  · exact .properties
  · split at listed
    next names given =>
      cases List.mem_singleton.mp listed
      split at given
      · cases given
      · cases given
        exact .required
    next => cases listed
  · cases title with
    | none => cases listed
    | some value => cases List.mem_singleton.mp listed; exact .title rfl
  · cases description with
    | none => cases listed
    | some value => cases List.mem_singleton.mp listed; exact .description rfl

def Setting.handSchema (setting : Setting) (compile : TypeSpec → Walk Schema) (member : Value)
    (spec : TypeSpec) : Walk Schema :=
  match member.givenPart? "enum" with
  | some choices =>
    match choices.members? with
    | some values => .ofAccess (setting.widened spec.nullable (.choice (.list values)))
    | none => throw (.unusable .unsuitable)
  | none => compile spec

theorem Setting.handField_eq (setting : Setting) (compile : TypeSpec → Walk Schema) (member : Value) :
    setting.handField compile member = (do
      let type ← Walk.ofAccess (member.part "type")
      let spec ← Walk.ofReading (TypeSpec.read true type)
      let schema ← setting.handSchema compile member spec
      let described ← Walk.ofAccess
        (schema.described (member.givenPart? "title") (member.givenPart? "description"))
      let name ← Walk.ofAccess (member.part "name")
      Walk.ofAccess (if name.isKey then .ok ⟨name, described, spec.required⟩ else .error .unsuitable)) := by
  have keyed (name : Value) (field : CompiledField Value) :
      (do
        if !name.isKey then throw (.unusable .unsuitable)
        return field : Walk (CompiledField Value)) =
      Walk.ofAccess (if name.isKey then .ok field else .error .unsuitable) := by
    cases name.isKey <;> rfl
  unfold Setting.handField Setting.handSchema
  cases member.givenPart? "enum" with
  | none => simp only [Walk.describe_eq, keyed]
  | some choices =>
    dsimp only
    cases choices.members? <;> simp only [Walk.describe_eq, keyed, Setting.widen_eq]

def sampleValue? (sample : Record Value) : Option Value :=
  if sample.isEmpty then none else some (.record sample)

variable (setting : Setting) (shows : TypeSpec → Schema → Prop)

def ShowsReference (type : Value) (schema : Schema) : Prop :=
  ∃ spec, TypeSpec.read false type = .ok spec ∧ shows spec schema

/-- The schema of the type of a field: its alternatives if they are given, and else its reference. -/
def Setting.ShowsType (field : Field) (spec : TypeSpec) (schema : Schema) : Prop :=
  match field.override? with
  | some choices => setting.widened spec.nullable (.choice (.texts choices)) = .ok schema
  | none => shows spec schema

def Setting.ShowsField (field : Field) (compiled : CompiledField String) : Prop :=
  ∃ spec schema described, TypeSpec.read true field.type = .ok spec ∧
    setting.ShowsType shows field spec schema ∧
    schema.described (givenText? field.title) (givenText? field.description) = .ok described ∧
    compiled = ⟨field.name, described, spec.required⟩

def ShowsMap (valueType : Option Value) (keywords : Schema) : Prop :=
  match valueType with
  | none => keywords = .object
  | some type => ∃ values, ShowsReference shows type values ∧
    Schema.object.set "additionalProperties" (.schema values) = .ok keywords

def Setting.ShowsBody (definition : Definition) (body : Schema) : Prop :=
  match definition with
  | .scalar _ fragment => body = .ofRecord fragment
  | .product _ fields title description _ =>
    ∃ compiled, List.Forall₂ (setting.ShowsField shows) fields compiled ∧
      body = CompiledField.body
        (.members (Record.ofList (compiled.map fun field => (field.name, field.schema))))
        ((CompiledField.requiredNames compiled).map .text) (givenText? title) (givenText? description)
  | .sum _ values => body = .choice (.texts values)
  | .map _ valueType sample =>
    ∃ keywords, ShowsMap shows valueType keywords ∧ keywords.annotate "example" (sampleValue? sample) = .ok body
  | .union _ alternatives => ∃ schemas, List.Forall₂ (ShowsReference shows) alternatives schemas ∧
    body = .oneOf schemas
  | .input .. => False

def ShowsParameter (parameter : Parameter) (record : ParameterRecord Schema) : Prop :=
  ∃ location spec schema, Parameter.readType parameter.type = .ok (location, spec) ∧ shows spec schema ∧
    record = .of parameter location spec schema

def ShowsHandParameter (member : Value) (record : ParameterRecord Schema) : Prop :=
  ∃ type location spec name schema, member.part "type" = .ok type ∧
    Parameter.readType type = .ok (location, spec) ∧ member.part "name" = .ok name ∧ shows spec schema ∧
    record = ⟨name, location, spec.required, schema, member.givenPart? "description"⟩

def ShowsParameters : Entry → List (ParameterRecord Schema) → Prop
  | .checked (.input _ parameters), records => List.Forall₂ (ShowsParameter shows) parameters records
  | .checked _, _ => False
  | .handwritten shape, records =>
    ∃ members, shape.members "parameters" = .ok members ∧ List.Forall₂ (ShowsHandParameter shows) members records

variable {setting shows}

private theorem shown_of_mem {related : α → β → Prop} {items : List α} {values : List β}
    (all : List.Forall₂ related items values) {item : α} (member : item ∈ items) : ∃ value, related item value := by
  induction all with
  | nil => cases member
  | cons first rest ih =>
    rcases List.mem_cons.mp member with rfl | later
    · exact ⟨_, first⟩
    · exact ih later

private theorem shown_of_imp {related other : α → β → Prop} {items : List α} {values : List β}
    (all : List.Forall₂ related items values)
    (implies : ∀ item ∈ items, ∀ value, related item value → other item value) :
    List.Forall₂ other items values := by
  induction all with
  | nil => exact .nil
  | cons first rest ih =>
    exact .cons (implies _ List.mem_cons_self _ first)
      (ih fun item member => implies item (List.mem_cons_of_mem _ member))

private theorem ShowsReference.of_read {type : Value} {schema : Schema} {spec : TypeSpec}
    (shown : ShowsReference shows type schema) (read : TypeSpec.read false type = .ok spec) :
    shows spec schema := by
  obtain ⟨other, again, schemaShown⟩ := shown
  cases read.symm.trans again
  exact schemaShown

/-- Every reference of a definition is shown in its body. -/
theorem Setting.ShowsBody.mentioned {definition : Definition} {body : Schema}
    (shown : setting.ShowsBody shows definition body) {spec : TypeSpec} (mentions : definition.Mentions spec) :
    ∃ schema, shows spec schema := by
  cases definition with
  | scalar | sum => exact mentions.elim
  | input => exact shown.elim
  | product name fields title description contentType =>
    obtain ⟨compiled, all, -⟩ := shown
    obtain ⟨field, member, plain, read⟩ := mentions
    obtain ⟨_, other, schema, _, again, typed, -⟩ := shown_of_mem all member
    cases read.symm.trans again
    rw [ShowsType, plain] at typed
    exact ⟨schema, typed⟩
  | map name valueType sample =>
    obtain ⟨keywords, shown, -⟩ := shown
    obtain ⟨type, rfl, read⟩ := mentions
    obtain ⟨values, typed, -⟩ := shown
    exact ⟨values, typed.of_read read⟩
  | union name alternatives =>
    obtain ⟨schemas, all, -⟩ := shown
    obtain ⟨type, member, read⟩ := mentions
    obtain ⟨schema, typed⟩ := shown_of_mem all member
    exact ⟨schema, typed.of_read read⟩

theorem ShowsParameters.mentioned {definition : Definition} {records : List (ParameterRecord Schema)}
    (shown : ShowsParameters shows (.checked definition) records) {spec : TypeSpec}
    (mentions : definition.Mentions spec) : ∃ schema, shows spec schema := by
  cases definition with
  | scalar | product | sum | map | union => exact shown.elim
  | input name parameters =>
    obtain ⟨parameter, member, location, read⟩ := mentions
    obtain ⟨_, _, _, schema, again, typed, -⟩ := shown_of_mem shown member
    cases read.symm.trans again
    exact ⟨schema, typed⟩

section Imp

variable {other : TypeSpec → Schema → Prop}

theorem ShowsReference.imp {type : Value} {schema : Schema} (shown : ShowsReference shows type schema)
    (implies : ∀ spec schema, TypeSpec.read false type = .ok spec → shows spec schema → other spec schema) :
    ShowsReference other type schema := by
  obtain ⟨spec, read, typed⟩ := shown
  exact ⟨spec, read, implies spec schema read typed⟩

theorem Setting.ShowsField.imp {field : Field} {compiled : CompiledField String}
    (shown : setting.ShowsField shows field compiled)
    (implies : ∀ spec schema, field.override? = none → TypeSpec.read true field.type = .ok spec →
      shows spec schema → other spec schema) : setting.ShowsField other field compiled := by
  obtain ⟨spec, schema, described, read, typed, rest⟩ := shown
  refine ⟨spec, schema, described, read, ?_, rest⟩
  unfold ShowsType at typed ⊢
  split at typed
  next => exact typed
  next plain => exact implies spec schema plain read typed

theorem ShowsMap.imp {valueType : Option Value} {keywords : Schema} (shown : ShowsMap shows valueType keywords)
    (implies : ∀ type spec schema, valueType = some type → TypeSpec.read false type = .ok spec →
      shows spec schema → other spec schema) : ShowsMap other valueType keywords := by
  cases valueType with
  | none => exact shown
  | some type =>
    obtain ⟨values, own, set⟩ := shown
    exact ⟨values, own.imp fun spec schema => implies type spec schema rfl, set⟩

theorem Setting.ShowsBody.imp {definition : Definition} {body : Schema}
    (shown : setting.ShowsBody shows definition body)
    (implies : ∀ spec schema, definition.Mentions spec → shows spec schema → other spec schema) :
    setting.ShowsBody other definition body := by
  cases definition with
  | scalar | sum | input => exact shown
  | product name fields title description contentType =>
    obtain ⟨compiled, all, same⟩ := shown
    refine ⟨compiled, shown_of_imp all ?_, same⟩
    intro field member value own
    exact own.imp fun spec schema plain read => implies spec schema ⟨field, member, plain, read⟩
  | map name valueType sample =>
    obtain ⟨keywords, shown, annotated⟩ := shown
    refine ⟨keywords, ?_, annotated⟩
    exact shown.imp fun type spec schema given read => implies spec schema ⟨type, given, read⟩
  | union name alternatives =>
    obtain ⟨schemas, all, same⟩ := shown
    refine ⟨schemas, shown_of_imp all ?_, same⟩
    intro type member schema own
    exact own.imp fun spec schema read => implies spec schema ⟨type, member, read⟩

variable (implies : ∀ spec schema, shows spec schema → other spec schema)

include implies

theorem ShowsParameter.imp {parameter : Parameter} {record : ParameterRecord Schema}
    (shown : ShowsParameter shows parameter record) : ShowsParameter other parameter record := by
  obtain ⟨location, spec, schema, read, typed, same⟩ := shown
  exact ⟨location, spec, schema, read, implies spec schema typed, same⟩

theorem ShowsHandParameter.imp {member : Value} {record : ParameterRecord Schema}
    (shown : ShowsHandParameter shows member record) : ShowsHandParameter other member record := by
  obtain ⟨type, location, spec, name, schema, typed, read, named, shown, same⟩ := shown
  exact ⟨type, location, spec, name, schema, typed, read, named, implies spec schema shown, same⟩

theorem ShowsParameters.imp {entry : Entry} {records : List (ParameterRecord Schema)}
    (shown : ShowsParameters shows entry records) : ShowsParameters other entry records := by
  cases entry with
  | handwritten shape =>
    obtain ⟨members, given, all⟩ := shown
    exact ⟨members, given, all.imp fun _ _ own => own.imp implies⟩
  | checked definition =>
    cases definition with
    | scalar | product | sum | map | union => exact shown.elim
    | input name parameters =>
      have all : List.Forall₂ (ShowsParameter shows) parameters records := shown
      exact all.imp fun _ _ own => own.imp implies

end Imp

theorem Setting.ShowsBody.decodes {definition : Definition} {body : Schema}
    (shown : setting.ShowsBody shows definition body) : definition.Decodes := by
  intro reading reads
  cases definition with
  | scalar | sum => exact reads.elim
  | input => exact shown.elim
  | product name fields title description contentType =>
    obtain ⟨compiled, all, -⟩ := shown
    obtain ⟨field, member, rfl⟩ := reads
    obtain ⟨_, spec, _, _, read, -⟩ := shown_of_mem all member
    exact ⟨spec, read⟩
  | map name valueType sample =>
    obtain ⟨keywords, shown, -⟩ := shown
    obtain ⟨type, rfl, rfl⟩ := reads
    obtain ⟨values, ⟨spec, read, -⟩, -⟩ := shown
    exact ⟨spec, read⟩
  | union name alternatives =>
    obtain ⟨schemas, all, -⟩ := shown
    obtain ⟨type, member, rfl⟩ := reads
    obtain ⟨_, spec, read, -⟩ := shown_of_mem all member
    exact ⟨spec, read⟩

theorem ShowsParameters.decodes {definition : Definition} {records : List (ParameterRecord Schema)}
    (shown : ShowsParameters shows (.checked definition) records) : definition.Decodes := by
  intro reading reads
  cases definition with
  | scalar | product | sum | map | union => exact shown.elim
  | input name parameters =>
    obtain ⟨parameter, member, rfl⟩ := reads
    obtain ⟨_, _, spec, _, read, -⟩ := shown_of_mem shown member
    exact ⟨spec, by rw [read]; rfl⟩

variable {rules : Rules} {compile : TypeSpec → Walk Schema} {shown : TypeSpec → Schema → Progress → Prop}

theorem Rules.Stable.showsReference (stable : ∀ spec schema, rules.Stable (shown spec schema)) (type : Value)
    (schema : Schema) :
    rules.Stable fun after => ShowsReference (fun spec schema => shown spec schema after) type schema := by
  intro before after grown own
  exact own.imp fun spec schema _ => stable spec schema before after grown

theorem Rules.Ensures.reference (type : Value)
    (valid : ∀ spec, TypeSpec.read false type = .ok spec → rules.Ensures (shown spec) (compile spec)) :
    rules.Ensures (fun schema after => ShowsReference (fun spec schema => shown spec schema after) type schema)
      (Walk.reference compile type) := by
  intro before schema after kept run
  simp only [Walk.reference, Walk.run_bind_ok, Walk.run_ofReading_ok] at run
  obtain ⟨spec, _, ⟨read, rfl⟩, ran⟩ := run
  obtain ⟨later, grown, typed⟩ := valid spec read _ schema after kept ran
  exact ⟨later, grown, spec, read, typed⟩

theorem Rules.Ensures.field (field : Field)
    (valid : ∀ spec, field.override? = none → TypeSpec.read true field.type = .ok spec →
      rules.Ensures (shown spec) (compile spec)) :
    rules.Ensures (fun compiled after =>
      setting.ShowsField (fun spec schema => shown spec schema after) field compiled)
      (setting.field compile field) := by
  intro before compiled after kept run
  simp only [Setting.field_eq, Walk.run_bind_ok, Walk.run_ofReading_ok, Walk.run_ofAccess_ok,
    Walk.run_pure_ok] at run
  obtain ⟨spec, start, ⟨read, rfl⟩, schema, _, ran, described, _, ⟨annotated, rfl⟩, rfl, rfl⟩ := run
  have typed : rules.invariant after ∧ rules.growth start after ∧
      setting.ShowsType (fun spec schema => shown spec schema after) field spec schema := by
    unfold Setting.fieldSchema at ran
    unfold Setting.ShowsType
    split at ran
    next =>
      obtain ⟨widened, rfl⟩ := Walk.run_ofAccess_ok.mp ran
      exact ⟨kept, rules.refl _, widened⟩
    next plain => exact valid spec plain read _ schema _ kept ran
  exact ⟨typed.1, typed.2.1, spec, schema, described, read, typed.2.2, annotated, rfl⟩

theorem Rules.Ensures.mapKeywords (valueType : Option Value)
    (valid : ∀ type spec, valueType = some type → TypeSpec.read false type = .ok spec →
      rules.Ensures (shown spec) (compile spec)) :
    rules.Ensures (fun keywords after => ShowsMap (fun spec schema => shown spec schema after) valueType keywords)
      (Walk.mapKeywords compile .object valueType) := by
  cases valueType with
  | none =>
    intro before keywords after kept run
    obtain ⟨rfl, rfl⟩ := Walk.run_pure_ok.mp run
    exact ⟨kept, rules.refl _, rfl⟩
  | some type =>
    intro before keywords after kept run
    simp only [Walk.mapKeywords, Walk.run_bind_ok, Walk.run_ofAccess_ok] at run
    obtain ⟨values, _, ran, set, rfl⟩ := run
    obtain ⟨later, grown, typed⟩ := Rules.Ensures.reference type (valid type · rfl) before values _ kept ran
    exact ⟨later, grown, values, typed, set⟩

/-- A walk through the body of a definition that succeeds gives a body in which every reference is
shown as the walk of that reference showed it. -/
theorem Rules.Ensures.definitionBody (definition : Definition)
    (stable : ∀ spec schema, rules.Stable (shown spec schema))
    (valid : ∀ spec, definition.Mentions spec → rules.Ensures (shown spec) (compile spec)) :
    rules.Ensures (fun body after => setting.ShowsBody (fun spec schema => shown spec schema after) definition body)
      (setting.definitionBody compile definition) := by
  have stableField (field : Field) (compiled : CompiledField String) :
      rules.Stable fun after => setting.ShowsField (fun spec schema => shown spec schema after) field compiled := by
    intro before after grown own
    exact own.imp fun spec schema _ _ => stable spec schema before after grown
  cases definition with
  | scalar name fragment =>
    intro before body after kept run
    obtain ⟨rfl, rfl⟩ := Walk.run_pure_ok.mp run
    exact ⟨kept, rules.refl _, rfl⟩
  | sum name values =>
    intro before body after kept run
    obtain ⟨rfl, rfl⟩ := Walk.run_pure_ok.mp run
    exact ⟨kept, rules.refl _, rfl⟩
  | input => exact Rules.Ensures.throw _
  | product name fields title description contentType =>
    refine (Rules.Ensures.each stableField fun field member => Rules.Ensures.field field
      fun spec plain read => valid spec ⟨field, member, plain, read⟩).bind ?_
    intro compiled current kept all body after run
    obtain ⟨rfl, rfl⟩ := Walk.run_pure_ok.mp run
    exact ⟨kept, rules.refl _, compiled, all, rfl⟩
  | map name valueType sample =>
    rw [Setting.definitionBody, Walk.mapBody_eq]
    refine (Rules.Ensures.mapKeywords valueType
      fun type spec given read => valid spec ⟨type, given, read⟩).bind ?_
    intro keywords current kept shown body after run
    obtain ⟨annotated, rfl⟩ := Walk.run_ofAccess_ok.mp run
    exact ⟨kept, rules.refl _, keywords, shown, annotated⟩
  | union name alternatives =>
    refine (Rules.Ensures.each (Rules.Stable.showsReference stable) fun type member => Rules.Ensures.reference type
      fun spec read => valid spec ⟨type, member, read⟩).bind ?_
    intro schemas current kept all body after run
    obtain ⟨rfl, rfl⟩ := Walk.run_pure_ok.mp run
    exact ⟨kept, rules.refl _, schemas, all, rfl⟩

theorem Rules.Ensures.parameter (parameter : Parameter)
    (valid : ∀ location spec, Parameter.readType parameter.type = .ok (location, spec) →
      rules.Ensures (shown spec) (compile spec)) :
    rules.Ensures (fun record after => ShowsParameter (fun spec schema => shown spec schema after) parameter record)
      (Walk.parameter compile parameter) := by
  intro before record after kept run
  simp only [Walk.parameter, Walk.run_bind_ok, Walk.run_ofReading_ok, Walk.run_pure_ok] at run
  obtain ⟨⟨location, spec⟩, _, ⟨read, rfl⟩, schema, _, ran, rfl, rfl⟩ := run
  obtain ⟨later, grown, typed⟩ := valid location spec read _ schema _ kept ran
  exact ⟨later, grown, location, spec, schema, read, typed, rfl⟩

theorem Rules.Ensures.handParameter (member : Value) (valid : ∀ spec, rules.Ensures (shown spec) (compile spec)) :
    rules.Ensures (fun record after => ShowsHandParameter (fun spec schema => shown spec schema after) member record)
      (Walk.handParameter compile member) := by
  intro before record after kept run
  simp only [Walk.handParameter, Walk.run_bind_ok, Walk.run_ofAccess_ok, Walk.run_ofReading_ok, Walk.run_pure_ok] at run
  obtain ⟨type, _, ⟨typed, rfl⟩, ⟨location, spec⟩, _, ⟨read, rfl⟩, name, _, ⟨named, rfl⟩, schema, _, ran, rfl, rfl⟩ := run
  obtain ⟨later, grown, own⟩ := valid spec _ schema _ kept ran
  exact ⟨later, grown, type, location, spec, name, schema, typed, read, named, own, rfl⟩

theorem Rules.Ensures.parameters (entry : Entry)
    (stable : ∀ spec schema, rules.Stable (shown spec schema))
    (valid : ∀ spec, (∀ definition, entry = .checked definition → definition.Mentions spec) →
      rules.Ensures (shown spec) (compile spec)) :
    rules.Ensures (fun records after => ShowsParameters (fun spec schema => shown spec schema after) entry records)
      (Walk.parameters compile entry) := by
  cases entry with
  | checked definition =>
    cases definition with
    | scalar | product | sum | map | union => exact Rules.Ensures.throw _
    | input name parameters =>
      refine Rules.Ensures.each ?_ fun parameter member => Rules.Ensures.parameter parameter
        fun location spec read => valid spec ?_
      · intro parameter record before after grown own
        exact own.imp fun spec schema => stable spec schema before after grown
      · intro definition same
        cases same
        exact ⟨parameter, member, location, read⟩
  | handwritten shape =>
    have stableMember (member : Value) (record : ParameterRecord Schema) :
        rules.Stable fun after => ShowsHandParameter (fun spec schema => shown spec schema after) member record := by
      intro before after grown own
      exact own.imp fun spec schema => stable spec schema before after grown
    have free (spec : TypeSpec) : rules.Ensures (shown spec) (compile spec) := valid spec (by simp)
    intro before records after kept run
    obtain ⟨members, start, read, ran⟩ := Walk.run_bind_ok.mp run
    obtain ⟨given, rfl⟩ := Walk.run_ofAccess_ok.mp read
    obtain ⟨later, grown, all⟩ :=
      Ensures.each stableMember (fun member _ => Ensures.handParameter member free) _ records after kept ran
    exact ⟨later, grown, members, given, all⟩

end Schemata
