import Schemata.Proofs.MaintainedProperties
import Schemata.Proofs.SchemaPositions

/-! The references that the compiler puts into schemas itself. Data that was taken over may look like a reference
to a reader, but the compiler knows its own: each has the base of the dialect, stands under `$ref` and carries the
name of a type that is stored. This asks nothing of the data, nor of hand-written objects. -/

namespace Schemata

/-- A reference that the compiler set, with its keyword. -/
def Schema.Emits (schema : Schema) (key base name : String) : Prop :=
  ∃ parts : Schema.Parts, (Schema.keywords parts).Inside schema ∧ (key, .reference base name) ∈ parts

/-- All references that the compiler set have a base and carry known names. -/
def Schema.Points (base : String) (known : String → Prop) (schema : Schema) : Prop :=
  ∀ key target name, schema.Emits key target name → key = "$ref" ∧ target = base ∧ known name

def Part.Points (base : String) (known : String → Prop) (key : String) (part : Part Schema) : Prop :=
  (∀ target name, part = .reference target name → key = "$ref" ∧ target = base ∧ known name) ∧
    ∀ sub ∈ part.held, sub.Points base known

namespace Schema

variable {base : String} {known : String → Prop} {schema changed : Schema} {key : String}

theorem Points.imp {other : String → Prop} (points : schema.Points base known)
    (implies : ∀ name, known name → other name) : schema.Points base other := by
  intro key target name emits
  obtain ⟨keyword, same, listed⟩ := points key target name emits
  exact ⟨keyword, same, implies name listed⟩

theorem points_data (value : Value) : (data value).Points base known := by
  intro key target name emits
  obtain ⟨parts, inside, -⟩ := emits
  cases inside

theorem points_keywords {parts : Parts} :
    (keywords parts).Points base known ↔ ∀ key part, (key, part) ∈ parts → part.Points base known key := by
  constructor
  · intro points key part member
    refine ⟨fun target name same => points key target name ⟨parts, .self _, same ▸ member⟩, ?_⟩
    intro sub held other target name emits
    obtain ⟨inner, inside, listed⟩ := emits
    exact points other target name ⟨inner, .keyword member held inside, listed⟩
  · intro all key target name emits
    obtain ⟨inner, inside, listed⟩ := emits
    cases inside with
    | self => exact (all key _ listed).1 target name rfl
    | keyword member held inside => exact (all _ _ member).2 _ held key target name ⟨inner, inside, listed⟩

@[simp] theorem points_nil : (keywords []).Points base known := points_keywords.mpr nofun

@[simp] theorem points_cons {part : Part Schema} {rest : Parts} :
    (keywords ((key, part) :: rest)).Points base known ↔
      part.Points base known key ∧ (keywords rest).Points base known := by
  simp only [points_keywords, List.mem_cons, Prod.mk.injEq]
  constructor
  · exact fun all => ⟨all key part (.inl ⟨rfl, rfl⟩), fun other held member => all other held (.inr member)⟩
  · intro both other held member
    rcases member with ⟨rfl, rfl⟩ | member
    · exact both.1
    · exact both.2 other held member

end Schema

namespace Part

variable {base : String} {known : String → Prop} {key : String}

@[simp] theorem points_data (value : Value) : (Part.data value).Points base known key := ⟨nofun, nofun⟩

@[simp] theorem points_reference {target name : String} :
    (Part.reference target name).Points base known key ↔ key = "$ref" ∧ target = base ∧ known name := by
  simp [Points, held]

@[simp] theorem points_schema {schema : Schema} :
    (Part.schema schema).Points base known key ↔ schema.Points base known := by
  simp [Points, held]

@[simp] theorem points_schemas {items : List Schema} :
    (Part.schemas items).Points base known key ↔ ∀ item ∈ items, item.Points base known := by
  simp [Points, held]

@[simp] theorem points_members {items : List (String × Schema)} :
    (Part.members items).Points base known key ↔ ∀ item ∈ items.map Prod.snd, item.Points base known := by
  simp [Points, held]

end Part

namespace Schema

variable {base : String} {known : String → Prop} {schema changed : Schema} {key : String}

theorem points_ofRecord (record : Record Value) : (ofRecord record).Points base known := by
  apply points_keywords.mpr
  intro key part member
  obtain ⟨value, -, rfl⟩ := mem_dataParts member
  exact Part.points_data value

theorem points_ofValue (value : Value) : (ofValue value).Points base known := by
  rcases ofValue_cases value with same | ⟨record, -, same⟩ <;> rw [same]
  · exact points_data value
  · exact points_ofRecord record

theorem Points.set {part : Part Schema} (points : schema.Points base known) (own : part.Points base known key)
    (done : schema.set key part = .ok changed) : changed.Points base known := by
  cases schema with
  | data => cases done
  | keywords parts =>
    cases done
    apply points_keywords.mpr
    intro other held member
    rcases Record.mem_set member with same | old
    · cases same
      exact own
    · exact points_keywords.mp points other held old

theorem Points.annotate {value : Option Value} (points : schema.Points base known)
    (done : schema.annotate key value = .ok changed) : changed.Points base known := by
  cases value with
  | none => cases done; exact points
  | some value => exact points.set (Part.points_data value) done

theorem points_null : null.Points base known := by simp [null]

theorem points_oneOf {alternatives : List Schema} (all : ∀ item ∈ alternatives, item.Points base known) :
    (oneOf alternatives).Points base known := by
  simpa [oneOf] using all

private theorem points_addNull {part widened : Part Schema} (own : part.Points base known "oneOf")
    (done : addNull part = .ok widened) : widened.Points base known "oneOf" := by
  rcases addNull_eq_ok done with ⟨items, rfl, rfl⟩ | ⟨items, -, rfl⟩
  · apply Part.points_schemas.mpr
    intro item member
    rcases List.mem_append.mp member with old | new
    · exact Part.points_schemas.mp own item old
    · cases List.mem_singleton.mp new
      exact points_null
  · exact Part.points_data _

theorem Points.nullable {flagged : Bool} (points : schema.Points base known)
    (done : schema.nullable? flagged = .ok changed) : changed.Points base known := by
  obtain ⟨parts, rfl, admission⟩ := admission done
  cases admission with
  | alternative found _ added =>
    have own := points_keywords.mp points _ _ (Record.mem_of_find? found)
    exact points.set (points_addNull own added) rfl
  | wrapped => simpa using points
  | beside => exact points_oneOf (by simpa using ⟨points, points_null⟩)
  | flagged | typed => exact points.set (Part.points_data _) rfl

end Schema

theorem CompiledField.points_body {base : String} {known : String → Prop} {properties : Part Schema}
    (own : properties.Points base known "properties") (required : List Value) (title description : Option Value) :
    (CompiledField.body properties required title description).Points base known := by
  apply Schema.points_keywords.mpr
  intro key part member
  cases CompiledField.says_of_mem rfl member with
  | properties => exact own
  | type | required | title | description => exact Part.points_data _

section Bodies

variable {setting : Setting} {base : String} {known : String → Prop}

theorem Setting.points_closed (setting : Setting) (base : String) (known : String → Prop) :
    setting.Closed (Schema.Points base known) where
  object := by simp [Schema.object]
  choice values := by simp [Schema.choice]
  array points := by simpa [Schema.array] using points
  oneOf := Schema.points_oneOf
  product required title description all :=
    CompiledField.points_body (Part.points_members.mpr all) required title description
  map points done := Schema.Points.set (by simp [Schema.object]) (Part.points_schema.mpr points) done
  annotated _ points done := points.annotate done
  widened {nullable _ _} points done := by
    cases nullable with
    | true => exact points.nullable done
    | false => cases done; exact points

/-- A hand-written body makes no references but those of its parts. In a product they are data already. -/
theorem Setting.ShowsShape.points {kind : Kind} {shape : Shape} {body : Schema}
    (shown : setting.ShowsShape (fun _ => Schema.Points base known) kind shape body) : body.Points base known := by
  cases kind with
  | product =>
    obtain ⟨members, compiled, -, -, rfl⟩ := shown
    exact CompiledField.points_body (Part.points_data _) _ _ _
  | map =>
    obtain ⟨own, valueType, keywords, -, -, shown, annotated⟩ := shown
    refine Schema.Points.annotate ?_ annotated
    cases valueType with
    | none =>
      cases show keywords = .ofValue own from shown
      exact Schema.points_ofValue own
    | some type =>
      obtain ⟨values, ⟨spec, -, points⟩, set⟩ := shown
      exact (Schema.points_ofValue own).set (Part.points_schema.mpr points) set
  | union =>
    obtain ⟨alternatives, schemas, -, shown, rfl⟩ := shown
    exact Schema.points_oneOf (forall_of_forall₂ shown fun type schema ⟨spec, _, points⟩ => points)
  | scalar | sum | input =>
    obtain ⟨own, -, rfl⟩ := shown
    exact Schema.points_ofValue own

theorem Setting.ShowsEntry.points {kind : Kind} {entry : Entry} {body : Schema}
    (shown : setting.ShowsEntry (fun _ => Schema.Points base known) kind entry body) : body.Points base known := by
  cases entry with
  | handwritten shape => exact Setting.ShowsShape.points shown
  | checked definition =>
    refine Setting.ShowsBody.keeps (setting.points_closed base known) ?_ shown fun _ _ => id
    cases definition with
    | scalar name fragment => exact Schema.points_ofRecord fragment
    | product | sum | map | union | input => trivial

end Bodies

def Upkeep.pointing (fits : Entry → Prop) : Upkeep where
  property dialect := Schema.Points dialect.base
  fits
  takes _ := True
  imp := Schema.Points.imp
  reference listed := by simpa [Schema.reference] using listed
  array points := by simpa [Schema.array] using points
  nullable := Schema.Points.nullable
  primitive _ := Schema.points_ofValue _
  scalar _ _ _ := Schema.points_ofValue _
  body _ shown := shown.points

end Schemata
