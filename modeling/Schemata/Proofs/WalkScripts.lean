import Schemata.Proofs.BodyShapes

/-! Walks laid open as scripts. A script asks for the schemas of references one after another and ends in an
outcome; what a body does besides stands between its questions. How a reference is compiled is left to whoever
answers, so that one script serves every way of compiling. -/

namespace Schemata

inductive Script (α : Type) where
  | ends (outcome : Except CompileError α)
  | asks (spec : TypeSpec) (next : Schema → Script α)

namespace Script

def run (compile : TypeSpec → Walk Schema) : Script α → Walk α
  | .ends outcome => .ofResult outcome
  | .asks spec next => do (next (← compile spec)).run compile

def bind (script : Script α) (next : α → Script β) : Script β :=
  match script with
  | .ends (.ok value) => next value
  | .ends (.error error) => .ends (.error error)
  | .asks spec rest => .asks spec fun schema => (rest schema).bind next

theorem run_bind (compile : TypeSpec → Walk Schema) (script : Script α) (next : α → Script β) :
    (script.bind next).run compile = script.run compile >>= fun value => (next value).run compile := by
  induction script with
  | ends outcome => cases outcome <;> rfl
  | asks spec rest ih => simp only [bind, run, bind_assoc, ih]

end Script

theorem Walk.ofAccess_eq (access : Except Fault α) : Walk.ofAccess access = .ofResult (access.mapError .unusable) := by
  cases access <;> rfl

theorem Walk.ofReading_eq (reading : Except Misreading α) :
    Walk.ofReading reading = .ofResult (reading.mapError .ofMisreading) := by
  cases reading <;> rfl

structure Scripted (walk : (TypeSpec → Walk Schema) → Walk α) where
  script : Script α
  runs : ∀ compile, script.run compile = walk compile

namespace Scripted

variable {walk other : (TypeSpec → Walk Schema) → Walk α}

def congr (scripted : Scripted walk) (same : ∀ compile, walk compile = other compile) : Scripted other :=
  ⟨scripted.script, fun compile => (scripted.runs compile).trans (same compile)⟩

def ofResult (outcome : Except CompileError α) : Scripted fun _ => .ofResult outcome :=
  ⟨.ends outcome, fun _ => rfl⟩

def asks (spec : TypeSpec) : Scripted fun compile => compile spec :=
  ⟨.asks spec fun schema => .ends (.ok schema), fun _ => bind_pure _⟩

def bind {next : (TypeSpec → Walk Schema) → α → Walk β} (first : Scripted walk)
    (rest : ∀ value, Scripted fun compile => next compile value) :
    Scripted fun compile => walk compile >>= next compile where
  script := first.script.bind fun value => (rest value).script
  runs compile := by simp only [Script.run_bind, first.runs, (rest _).runs]

protected def pure (value : α) : Scripted fun _ => pure value := ofResult (.ok value)

def access (accessed : Except Fault α) : Scripted fun _ => .ofAccess accessed :=
  (ofResult (accessed.mapError .unusable)).congr fun _ => (Walk.ofAccess_eq accessed).symm

def reading (read : Except Misreading α) : Scripted fun _ => .ofReading read :=
  (ofResult (read.mapError .ofMisreading)).congr fun _ => (Walk.ofReading_eq read).symm

def each {step : (TypeSpec → Walk Schema) → α → Walk β} (steps : ∀ item, Scripted fun compile => step compile item) :
    (items : List α) → Scripted fun compile => Walk.each (step compile) items
  | [] => .pure []
  | item :: rest => (steps item).bind fun first => (each steps rest).bind fun others => .pure (first :: others)

variable (setting : Setting)

def reference (type : Value) : Scripted fun compile => Walk.reference compile type :=
  (reading (TypeSpec.read false type)).bind asks

def fieldSchema (field : Field) (spec : TypeSpec) : Scripted fun compile => setting.fieldSchema compile field spec :=
  match given : field.override? with
  | some choices =>
    (access (setting.widened spec.nullable (.choice (.texts choices)))).congr fun _ => by
      rw [Setting.fieldSchema, given]
  | none => (asks spec).congr fun _ => by rw [Setting.fieldSchema, given]

def field (field : Field) : Scripted fun compile => setting.field compile field :=
  ((reading (TypeSpec.read true field.type)).bind fun spec =>
    (fieldSchema setting field spec).bind fun schema =>
    (access (schema.described (givenText? field.title) (givenText? field.description))).bind fun described =>
    .pure ⟨field.name, described, spec.required⟩).congr fun compile => (setting.field_eq compile field).symm

def mapKeywords (body : Schema) :
    (valueType : Option Value) → Scripted fun compile => Walk.mapKeywords compile body valueType
  | none => .pure body
  | some type => (reference type).bind fun values => access (body.set "additionalProperties" (.schema values))

def mapBody (body : Schema) (valueType sample : Option Value) :
    Scripted fun compile => Walk.mapBody compile body valueType sample :=
  ((mapKeywords body valueType).bind fun keywords => access (keywords.annotate "example" sample)).congr
    fun compile => (Walk.mapBody_eq compile body valueType sample).symm

def definitionBody : (definition : Definition) → Scripted fun compile => setting.definitionBody compile definition
  | .scalar _ fragment => .pure (Schema.ofRecord fragment)
  | .product _ fields title description _ => (each (field setting) fields).bind fun fields =>
    .pure (CompiledField.body (.members (Record.ofList (fields.map fun field => (field.name, field.schema))))
      ((CompiledField.requiredNames fields).map .text) (givenText? title) (givenText? description))
  | .sum _ values => .pure (Schema.choice (.texts values))
  | .map _ valueType sample => mapBody .object valueType (if sample.isEmpty then none else some (.record sample))
  | .union _ alternatives => (each reference alternatives).bind fun schemas => .pure (Schema.oneOf schemas)
  | .input .. => ofResult (.error (.unusable (.missing "allowed_types")))

def handSchema (member : Value) (spec : TypeSpec) : Scripted fun compile => setting.handSchema compile member spec :=
  match given : member.givenPart? "enum" with
  | some choices =>
    match listed : choices.members? with
    | some values =>
      (access (setting.widened spec.nullable (.choice (.list values)))).congr fun _ => by
        simp only [Setting.handSchema, given, listed]
    | none =>
      (ofResult (.error (.unusable .unsuitable))).congr fun _ => by
        simp only [Setting.handSchema, given, listed, Walk.ofResult]
  | none => (asks spec).congr fun _ => by rw [Setting.handSchema, given]

def handField (member : Value) : Scripted fun compile => setting.handField compile member :=
  ((access (member.part "type")).bind fun type =>
    (reading (TypeSpec.read true type)).bind fun spec =>
    (handSchema setting member spec).bind fun schema =>
    (access (schema.described (member.givenPart? "title") (member.givenPart? "description"))).bind fun described =>
    (access (member.part "name")).bind fun name =>
    access (if name.isKey then .ok (⟨name, described, spec.required⟩ : CompiledField Value)
      else .error .unsuitable)).congr fun compile => (setting.handField_eq compile member).symm

def shapeBody (kind : Kind) (shape : Shape) : Scripted fun compile => setting.shapeBody compile kind shape :=
  match kind with
  | .product => (access (shape.members "fields")).bind fun members =>
    (each (handField setting) members).bind fun fields =>
    .pure (CompiledField.body (.data (.map (Value.ofEntries (fields.map fun field => (field.name, field.schema.toValue)))))
      (CompiledField.requiredNames fields) (shape.given? "title") (shape.given? "description"))
  | .map => (access shape.schema).bind fun body => (access shape.valueType?).bind fun valueType =>
    mapBody (.ofValue body) valueType (shape.given? "example")
  | .union => (access (shape.members "allowed_types")).bind fun alternatives =>
    (each reference alternatives).bind fun schemas => .pure (Schema.oneOf schemas)
  | .scalar | .sum | .input => (access shape.schema).bind fun fragment => .pure (Schema.ofValue fragment)

def body (kind : Kind) : (entry : Entry) → Scripted fun compile => setting.body compile kind entry
  | .checked definition => definitionBody setting definition
  | .handwritten shape => shapeBody setting kind shape

def parameter (parameter : Parameter) : Scripted fun compile => Walk.parameter compile parameter :=
  (reading (Parameter.readType parameter.type)).bind fun (location, spec) =>
    (asks spec).bind fun schema => .pure (ParameterRecord.of parameter location spec schema)

def handParameter (member : Value) : Scripted fun compile => Walk.handParameter compile member :=
  (access (member.part "type")).bind fun type => (reading (Parameter.readType type)).bind fun (location, spec) =>
    (access (member.part "name")).bind fun name => (asks spec).bind fun schema =>
    .pure (⟨name, location, spec.required, schema, member.givenPart? "description"⟩ : ParameterRecord Schema)

def parameters : (entry : Entry) → Scripted fun compile => Walk.parameters compile entry
  | .checked (.input _ parameters) => each parameter parameters
  | .checked (.scalar ..) | .checked (.product ..) | .checked (.sum ..) | .checked (.map ..) | .checked (.union ..) =>
    ofResult (.error (.unusable (.missing "parameters")))
  | .handwritten shape => (access (shape.members "parameters")).bind (each handParameter)

end Scripted

end Schemata
