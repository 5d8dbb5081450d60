import Schemata.Compile.Classify
import Schemata.Mode
import Schemata.Parameter
import Schemata.Schema

/-!
The walk that compiles a decoded reference. Named types are written out wherever they occur, or,
when hoisting, compiled once into a table and referred to. The chain holds the names of the types
that are being written out; a name that comes up again is a reference when hoisting, and an error
otherwise. Each step into a named type puts a fresh name of the catalog on the chain, which is why
the walk ends.
-/

namespace Schemata

/-- The target of a compilation: what references start with, and how null is admitted. -/
structure Dialect where
  base : String
  flagged : Bool
  deriving DecidableEq

abbrev Table := Record Schema

/-- A decision worth a line of the log. -/
inductive Event where
  | compiling (given : Referent) (mode : Mode)
  | reused (name : String)
  | recursive (name : String)
  | hoisted (name : String)

def Event.message : Event → String
  | .compiling given mode => "Compiling " ++ given.literal ++ " (mode=" ++ toString mode.bits ++ ")"
  | .reused name => "Reusing hoisted schema '" ++ name ++ "'"
  | .recursive name => "Recursive reference to '" ++ name ++ "' emitted as $ref"
  | .hoisted name => "Hoisted schema '" ++ name ++ "'"

structure Setting where
  catalog : Catalog
  registry : Registry
  dialect : Dialect
  hoisting : Bool

/-- What a compilation gathers: the table so far, the references already compiled, and the events,
the latest first. -/
structure Progress where
  table : Table
  known : List (TypeSpec × Schema)
  events : List Event

abbrev Walk := EStateM CompileError Progress

namespace Walk

def note (event : Event) : Walk Unit :=
  modify fun progress => { progress with events := event :: progress.events }

def ofReading : Except Misreading α → Walk α
  | .ok value => pure value
  | .error misreading => throw (.ofMisreading misreading)

def ofAccess : Except Fault α → Walk α
  | .ok value => pure value
  | .error fault => throw (.unusable fault)

def ofResult : Except CompileError α → Walk α
  | .ok value => pure value
  | .error error => throw error

def hoist (name : String) (schema : Schema) : Walk Unit :=
  modify fun progress => { progress with table := Record.set progress.table name schema }

def each (step : α → Walk β) : List α → Walk (List β)
  | [] => pure []
  | item :: rest => do
    let first ← step item
    return first :: (← each step rest)

/-- Compiles a reference at most once. The mark of its field makes no difference. -/
def memoized (spec : TypeSpec) (compile : Walk Schema) : Walk Schema := do
  match (← get).known.lookup spec.optional with
  | some schema => return schema
  | none =>
    let schema ← compile
    modify fun progress => { progress with known := (spec.optional, schema) :: progress.known }
    return schema

end Walk

def Setting.widen (setting : Setting) (nullable : Bool) (schema : Schema) : Walk Schema :=
  if nullable then .ofAccess (schema.nullable? setting.dialect.flagged) else pure schema

/-- The schema of an occurrence of a named type, given how its body is compiled. The body is
compiled only if the name is not on the chain. A type whose name is no text can be written out but
not referred to. -/
def Setting.occurrence (setting : Setting) (chain : List Name) (entry : Entry) (nullable : Bool)
    (body : entry.name ∉ chain → Walk Schema) : Walk Schema := do
  if setting.hoisting then
    match entry.name with
    | .text name =>
      if Record.has (← get).table name then Walk.note (.reused name)
      else if fresh : entry.name ∈ chain then Walk.note (.recursive name)
      else
        Walk.hoist name (← body fresh)
        Walk.note (.hoisted name)
      setting.widen nullable (Schema.reference setting.dialect.base name)
    | .other .. =>
      if fresh : entry.name ∉ chain then discard (body fresh)
      throw (.unusable .unsuitable)
  else if fresh : entry.name ∈ chain then
    throw (.unterminatedRecursion (chain ++ [entry.name]))
  else
    setting.widen nullable (← body fresh)

/-- Number of catalog entries whose names are not on the chain. -/
def Setting.unvisited (setting : Setting) (chain : List Name) : Nat :=
  setting.catalog.toList.countP fun entry => decide (entry.name ∉ chain)

theorem Setting.unvisited_lt {setting : Setting} {chain : List Name} {entry : Entry}
    (held : entry ∈ setting.catalog.toList) (fresh : entry.name ∉ chain) :
    setting.unvisited (chain ++ [entry.name]) < setting.unvisited chain := by
  unfold Setting.unvisited
  generalize setting.catalog.toList = entries at held
  have weaker (e : Entry) : decide (e.name ∉ chain ++ [entry.name]) = true →
      decide (e.name ∉ chain) = true := by
    simp only [decide_eq_true_eq, List.mem_append, not_or]
    exact And.left
  induction entries with
  | nil => cases held
  | cons head rest ih =>
    have smaller := List.countP_mono_left (l := rest) (fun e _ => weaker e)
    simp only [List.countP_cons]
    cases held with
    | head =>
      rw [if_neg (by simp), if_pos (by simpa using fresh)]
      omega
    | tail _ held =>
      have later := ih held
      by_cases outer : decide (head.name ∉ chain ++ [entry.name]) = true
      · rw [if_pos outer, if_pos (weaker head outer)]
        omega
      · rw [if_neg outer]
        omega

/-- The schema of a decoded reference, given how the names in it are compiled. -/
def Setting.spec (setting : Setting) (named : String → Bool → Bool → Walk Schema) :
    TypeSpec → Walk Schema
  | .named name required nullable =>
    Walk.memoized (.named name required nullable) (named name required nullable)
  | .array element required nullable =>
    Walk.memoized (.array element required nullable) do
      let items ← setting.spec named element
      setting.widen nullable (.array items)

/-- A reference that stands in no field, given how references are compiled. -/
def Walk.reference (compile : TypeSpec → Walk Schema) (type : Value) : Walk Schema := do
  compile (← Walk.ofReading (TypeSpec.read false type))

/-- A text that counts as given. -/
def givenText? (text : Option String) : Option Value := (text.filter (· ≠ "")).map .text

/-- A compiled field of a product. -/
structure CompiledField (ν : Type) where
  name : ν
  schema : Schema
  required : Bool

namespace CompiledField

/-- The names of the fields that are required, in order. -/
def requiredNames (fields : List (CompiledField ν)) : List ν :=
  (fields.filter (·.required)).map (·.name)

/-- The body of a product: its properties in order, the required ones, and its own title and
description. -/
def body (properties : Part Schema) (required : List Value) (title description : Option Value) :
    Schema :=
  let optional (name : String) (value : Option Value) : Schema.Parts :=
    match value with
    | some value => [(name, .data value)]
    | none => []
  .keywords <|
    [("type", .data (.text "object")), ("properties", properties)]
      ++ optional "required" (if required.isEmpty then none else some (.list required))
      ++ optional "title" title ++ optional "description" description

end CompiledField

/-- Sets the title and the description of a field on the schema of its type. -/
def Walk.describe (title description : Option Value) (schema : Schema) : Walk Schema := do
  let schema ← Walk.ofAccess (schema.annotate "title" title)
  Walk.ofAccess (schema.annotate "description" description)

/-- The body of a map: what its own schema says, the schema of its values, and an example. -/
def Walk.mapBody (compile : TypeSpec → Walk Schema) (body : Schema)
    (valueType sample : Option Value) : Walk Schema := do
  let body ← match valueType with
    | none => pure body
    | some type => do
      let values ← Walk.reference compile type
      Walk.ofAccess (body.set "additionalProperties" (.schema values))
  Walk.ofAccess (body.annotate "example" sample)

/-- The alternatives of a field that take the place of its type. -/
def Field.override? (field : Field) : Option (List String) :=
  field.choices.filter fun choices => !choices.isEmpty

/-- A field of a product, given how references are compiled. -/
def Setting.field (setting : Setting) (compile : TypeSpec → Walk Schema) (field : Field) :
    Walk (CompiledField String) := do
  let spec ← Walk.ofReading (TypeSpec.read true field.type)
  let schema ← match field.override? with
    | some choices => setting.widen spec.nullable (.choice (.texts choices))
    | none => compile spec
  let schema ← Walk.describe (givenText? field.title) (givenText? field.description) schema
  return ⟨field.name, schema, spec.required⟩

/-- The body of a checked definition, given how references are compiled. An input has none. -/
def Setting.definitionBody (setting : Setting) (compile : TypeSpec → Walk Schema) :
    Definition → Walk Schema
  | .scalar _ fragment => return .ofRecord fragment
  | .product _ fields title description _ => do
    let fields ← Walk.each (setting.field compile) fields
    let properties := Record.ofList (fields.map fun field => (field.name, field.schema))
    let required := (CompiledField.requiredNames fields).map .text
    return CompiledField.body (.members properties) required (givenText? title)
      (givenText? description)
  | .sum _ values => return .choice (.texts values)
  | .map _ valueType sample =>
    Walk.mapBody compile .object valueType (if sample.isEmpty then none else some (.record sample))
  | .union _ alternatives => return .oneOf (← Walk.each (Walk.reference compile) alternatives)
  | .input .. => throw (.unusable (.missing "allowed_types"))

/-- A field of a hand-written product. Its name may be any key, and whatever it says is taken over
as it was given. -/
def Setting.handField (setting : Setting) (compile : TypeSpec → Walk Schema) (member : Value) :
    Walk (CompiledField Value) := do
  let type ← Walk.ofAccess (member.part "type")
  let spec ← Walk.ofReading (TypeSpec.read true type)
  let schema ← match member.givenPart? "enum" with
    | some choices =>
      match choices.members? with
      | some values => setting.widen spec.nullable (.choice (.list values))
      | none => throw (.unusable .unsuitable)
    | none => compile spec
  let schema ← Walk.describe (member.givenPart? "title") (member.givenPart? "description") schema
  let name ← Walk.ofAccess (member.part "name")
  if !name.isKey then throw (.unusable .unsuitable)
  return ⟨name, schema, spec.required⟩

def Setting.shapeBody (setting : Setting) (compile : TypeSpec → Walk Schema) (kind : Kind)
    (shape : Shape) : Walk Schema :=
  match kind with
  | .product => do
    let fields ← Walk.each (setting.handField compile) (← Walk.ofAccess (shape.members "fields"))
    let properties := Value.ofEntries (fields.map fun field => (field.name, field.schema.toValue))
    return CompiledField.body (.data (.map properties)) (CompiledField.requiredNames fields)
      (shape.given? "title") (shape.given? "description")
  | .map => do
    let body := Schema.ofValue (← Walk.ofAccess shape.schema)
    let valueType ← Walk.ofAccess shape.valueType?
    Walk.mapBody compile body valueType (shape.given? "example")
  | .union => do
    let alternatives ← Walk.ofAccess (shape.members "allowed_types")
    return .oneOf (← Walk.each (Walk.reference compile) alternatives)
  | _ => return .ofValue (← Walk.ofAccess shape.schema)

def Setting.body (setting : Setting) (compile : TypeSpec → Walk Schema) (kind : Kind) :
    Entry → Walk Schema
  | .checked definition => setting.definitionBody compile definition
  | .handwritten shape => setting.shapeBody compile kind shape

def compileName (setting : Setting) (chain : List Name) (name : String)
    (required nullable : Bool) : Walk Schema :=
  match classified : classify setting.catalog setting.registry name with
  | .error error => throw error
  | .ok (.primitive fragment) => setting.widen nullable (.ofValue fragment)
  | .ok (.entry .input _) =>
    throw (.invalidReference (.written (.text (TypeSpec.named name required nullable).render))
      (.nestedInput name))
  | .ok (.entry .scalar entry) => do
    let fragment ← Walk.ofAccess entry.fragment
    setting.widen nullable (.ofValue fragment)
  | .ok (.entry kind entry) =>
    setting.occurrence chain entry nullable fun fresh =>
      have := Setting.unvisited_lt (mem_of_classify_eq classified) fresh
      setting.body (setting.spec fun name required nullable =>
        compileName setting (chain ++ [entry.name]) name required nullable) kind entry
  termination_by setting.unvisited chain

def compileSpec (setting : Setting) (chain : List Name) : TypeSpec → Walk Schema :=
  setting.spec (compileName setting chain)

/-- The body of a named type, with its name on the chain. -/
def compileBody (setting : Setting) (chain : List Name) : Kind → Entry → Walk Schema :=
  setting.body (compileSpec setting chain)

def Walk.parameter (compile : TypeSpec → Walk α) (parameter : Parameter) :
    Walk (ParameterRecord α) := do
  let (location, spec) ← Walk.ofReading (Parameter.readType parameter.type)
  return .of parameter location spec (← compile spec)

def Walk.handParameter (compile : TypeSpec → Walk α) (member : Value) :
    Walk (ParameterRecord α) := do
  let type ← Walk.ofAccess (member.part "type")
  let (location, spec) ← Walk.ofReading (Parameter.readType type)
  let name ← Walk.ofAccess (member.part "name")
  let schema ← compile spec
  return { name, location, required := spec.required, schema
           description := member.givenPart? "description" }

def Walk.parameters (compile : TypeSpec → Walk α) : Entry → Walk (List (ParameterRecord α))
  | .checked (.input _ parameters) => Walk.each (Walk.parameter compile) parameters
  | .checked _ => throw (.unusable (.missing "parameters"))
  | .handwritten shape => do
    Walk.each (Walk.handParameter compile) (← Walk.ofAccess (shape.members "parameters"))

/-- What a compilation answers: a schema, or for an input type the records of its parameters. -/
inductive Compiled where
  | single (schema : Schema)
  | parameters (records : List (ParameterRecord Schema))

def Compiled.toValue : Compiled → Value
  | .single schema => schema.toValue
  | .parameters records => .list (records.map (ParameterRecord.toValue Schema.toValue))

namespace Compiled

def ofInput (setting : Setting) (entry : Entry) : Walk Compiled := do
  return .parameters (← Walk.parameters (compileSpec setting []) entry)

/-- Compiles a reference on its own; only here may it name an input type. -/
def ofSpec (setting : Setting) (spec : TypeSpec) : Walk Compiled := do
  if let some name := spec.name? then
    if let .entry .input entry ← Walk.ofResult (classify setting.catalog setting.registry name) then
      if spec.nullable then
        throw (.invalidReference (.written (.text spec.render)) .nullableInput)
      return ← ofInput setting entry
  return .single (← compileSpec setting [] spec)

/-- Compiles a definition, whether or not the catalog holds it. -/
def ofDefinition (setting : Setting) (definition : Definition) : Walk Compiled :=
  let entry : Entry := .checked definition
  match definition with
  | .input .. => ofInput setting entry
  | .scalar _ fragment => return .single (.ofRecord fragment)
  | definition => do
    let schema ← setting.occurrence [] entry false fun _ =>
      compileBody setting [entry.name] definition.kind entry
    return .single schema

def ofReferent (setting : Setting) : Referent → Walk Compiled
  | .entry (.checked definition) => ofDefinition setting definition
  | .entry (.handwritten shape) =>
    throw (.invalidReference (.entry (.handwritten shape)) .notReference)
  | .written value => do
    ofSpec setting (← Walk.ofReading (TypeSpec.read false value))

end Compiled

end Schemata
