import Schemata.Proofs.ClosedProperties
import Schemata.Proofs.SchemaPositions

/-! Schemas whose references are all known. Data cannot hold a reference where a reader looks for
schemas, so only the references that the compiler put in have to be known, and every way of building
a schema out of such schemas keeps to that. -/

namespace Schemata

/-- What stands under `$ref` in an object that a reader meets as a schema. -/
def Schema.Refers (schema : Schema) (target : Value) : Prop :=
  ∃ object ∈ schema.toValue.objectsAt .schema, (.text "$ref", target) ∈ object

/-- A keyword with known references only. Data is no concern where no reader looks for schemas. -/
def Part.Resolves (base : String) (known : String → Prop) (key : String) : Part Schema → Prop
  | .data value => key ≠ "$ref" ∧ (Position.of? key ≠ none → value.hasKey "$ref" = false)
  | .reference target name => target = base ∧ known name
  | .schema _ => Position.of? key = some .schema
  | .schemas _ => Position.of? key = some .list
  | .members _ => Position.of? key = some .members

def Schema.Resolves (base : String) (known : String → Prop) : Schema → Prop
  | .keywords parts => ∀ key part, (key, part) ∈ parts → part.Resolves base known key
  | .data value => value.hasKey "$ref" = false

/-- A schema with known references only, at every depth. -/
def Schema.Sound (base : String) (known : String → Prop) (schema : Schema) : Prop :=
  schema.Everywhere (Schema.Resolves base known)

def Part.Sound (base : String) (known : String → Prop) (key : String) (part : Part Schema) : Prop :=
  part.Resolves base known key ∧ ∀ sub ∈ part.held, sub.Sound base known

section Parts

variable {base : String} {known : String → Prop} {key : String}

@[simp] theorem Part.sound_data {value : Value} :
    (Part.data value).Sound base known key ↔
      key ≠ "$ref" ∧ (Position.of? key ≠ none → value.hasKey "$ref" = false) := by
  simp [Sound, Resolves, held]

@[simp] theorem Part.sound_reference {target name : String} :
    (Part.reference target name).Sound base known key ↔ target = base ∧ known name := by
  simp [Sound, Resolves, held]

@[simp] theorem Part.sound_schema {schema : Schema} :
    (Part.schema schema).Sound base known key ↔
      Position.of? key = some .schema ∧ schema.Sound base known := by
  simp [Sound, Resolves, held]

@[simp] theorem Part.sound_schemas {items : List Schema} :
    (Part.schemas items).Sound base known key ↔
      Position.of? key = some .list ∧ ∀ item ∈ items, item.Sound base known :=
  Iff.rfl

@[simp] theorem Part.sound_members {items : List (String × Schema)} :
    (Part.members items).Sound base known key ↔
      Position.of? key = some .members ∧ ∀ item ∈ items.map Prod.snd, item.Sound base known :=
  Iff.rfl

theorem Part.sound_of_hasKey {value : Value} (other : key ≠ "$ref") (free : value.hasKey "$ref" = false) :
    (Part.data value).Sound base known key :=
  Part.sound_data.mpr ⟨other, fun _ => free⟩

end Parts

namespace Schema

variable {base : String} {known : String → Prop} {schema changed : Schema} {key : String}

theorem sound_data {value : Value} : (data value).Sound base known ↔ value.hasKey "$ref" = false :=
  everywhere_data

theorem sound_keywords {parts : Parts} :
    (keywords parts).Sound base known ↔ ∀ key part, (key, part) ∈ parts → part.Sound base known key := by
  refine everywhere_keywords.trans ⟨?_, fun all => ⟨?_, ?_⟩⟩
  · exact fun ⟨own, below⟩ key part member => ⟨own key part member, below key part member⟩
  · exact fun key part member => (all key part member).1
  · exact fun key part member => (all key part member).2

@[simp] theorem sound_nil : (keywords []).Sound base known :=
  sound_keywords.mpr nofun

@[simp] theorem sound_cons {part : Part Schema} {rest : Parts} :
    (keywords ((key, part) :: rest)).Sound base known ↔
      part.Sound base known key ∧ (keywords rest).Sound base known := by
  simp only [sound_keywords, List.mem_cons, Prod.mk.injEq]
  constructor
  · exact fun all => ⟨all key part (.inl ⟨rfl, rfl⟩), fun other held member => all other held (.inr member)⟩
  · intro both other held member
    rcases member with ⟨rfl, rfl⟩ | member
    · exact both.1
    · exact both.2 other held member

theorem Sound.imp {other : String → Prop} (sound : schema.Sound base known)
    (implies : ∀ name, known name → other name) : schema.Sound base other := by
  refine Everywhere.imp sound ?_
  intro inner resolves
  cases inner with
  | data => exact resolves
  | keywords parts =>
    intro key part member
    have own := resolves key part member
    cases part with
    | reference target name => exact ⟨own.1, implies name own.2⟩
    | data | schema | schemas | members => exact own

private theorem Resolves.seated (resolves : schema.Resolves base known) : schema.Seated := by
  cases schema with
  | data => trivial
  | keywords parts =>
    intro key part member
    have own := resolves key part member
    cases part with
    | data | reference => trivial
    | schema | schemas | members => exact own

/-- What a reader finds under `$ref` in a sound schema is a known reference. -/
theorem Sound.refers (sound : schema.Sound base known) {target : Value} (refers : schema.Refers target) :
    ∃ name, known name ∧ target = .text (base ++ name) := by
  obtain ⟨object, found, member⟩ := refers
  have origin := origin_of_objectsAt (Everywhere.imp sound fun _ => Resolves.seated) found
  cases origin with
  | plain inside found => exact absurd member (Value.notMem_of_hasKey _ (sound _ inside) found target)
  | given inside listed position found =>
    have free := (sound _ inside _ _ listed).2 (by simp [position])
    exact absurd member (Value.notMem_of_hasKey _ free found target)
  | built inside same =>
    subst same
    obtain ⟨key, part, listed, same⟩ := mem_entries member
    cases same
    have own := sound _ inside _ _ listed
    cases part with
    | data value => exact absurd rfl own.1
    | reference target name => exact ⟨name, own.2, by rw [← own.1, partValue]⟩
    | schema | schemas | members => cases own

theorem sound_reference {name : String} (listed : known name) : (reference base name).Sound base known := by
  simpa [reference] using listed

theorem sound_null : null.Sound base known := by simp [null, Position.of?_eq]

theorem sound_object : object.Sound base known := by simp [object, Position.of?_eq]

theorem sound_choice {values : Value} : (choice values).Sound base known := by simp [choice, Position.of?_eq]

theorem sound_array {items : Schema} (sound : items.Sound base known) : (array items).Sound base known := by
  simpa [array, Position.of?_eq] using sound

theorem sound_oneOf {alternatives : List Schema} (sound : ∀ item ∈ alternatives, item.Sound base known) :
    (oneOf alternatives).Sound base known := by
  simpa [oneOf, Position.of?_eq] using sound

theorem sound_ofRecord {record : Record Value} (free : (Value.record record).hasKey "$ref" = false) :
    (ofRecord record).Sound base known := by
  apply sound_keywords.mpr
  intro key part member
  obtain ⟨value, listed, rfl⟩ := mem_dataParts member
  have clean := Value.entriesHaveKey_eq_false.mp free (.text key) value (List.mem_map.mpr ⟨_, listed, rfl⟩)
  exact Part.sound_of_hasKey (by simpa [Value.isText] using clean.1) clean.2.2

theorem sound_ofValue {value : Value} (free : value.hasKey "$ref" = false) : (ofValue value).Sound base known := by
  rcases ofValue_cases value with same | ⟨record, rfl, same⟩ <;> rw [same]
  · exact sound_data.mpr free
  · exact sound_ofRecord free

theorem Sound.set {part : Part Schema} (sound : schema.Sound base known) (own : part.Sound base known key)
    (done : schema.set key part = .ok changed) : changed.Sound base known := by
  cases schema with
  | data => cases done
  | keywords parts =>
    cases done
    apply sound_keywords.mpr
    intro other held member
    rcases Record.mem_set member with same | old
    · cases same
      exact own
    · exact sound_keywords.mp sound other held old

theorem Sound.annotate {value : Option Value} (sound : schema.Sound base known) (other : key ≠ "$ref")
    (apart : Position.of? key = none) (done : schema.annotate key value = .ok changed) :
    changed.Sound base known := by
  cases value with
  | none => cases done; exact sound
  | some value => exact sound.set (Part.sound_data.mpr ⟨other, fun inside => absurd apart inside⟩) done

theorem Sound.described {title description : Option Value} (sound : schema.Sound base known)
    (done : schema.described title description = .ok changed) : changed.Sound base known := by
  obtain ⟨middle, titled, described⟩ := described_eq_ok.mp done
  exact (sound.annotate (by simp) rfl titled).annotate (by simp) rfl described

/-- Alternatives with null beside them. Those that are data may be read out of a mapping. -/
private theorem sound_addNull {part widened : Part Schema} (own : part.Sound base known "oneOf")
    (done : addNull part = .ok widened) : widened.Sound base known "oneOf" := by
  have beside {items : List Value} (clean : ∀ item ∈ items, item.hasKey "$ref" = false) :
      (Part.data (.list (items ++ [null.toValue]))).Sound base known "oneOf" := by
    refine Part.sound_of_hasKey (by simp) (Value.itemsHaveKey_eq_false.mpr fun item member => ?_)
    rcases List.mem_append.mp member with old | new
    · exact clean item old
    · cases List.mem_singleton.mp new
      rfl
  cases part with
  | schemas alternatives =>
    cases done
    obtain ⟨seated, all⟩ := Part.sound_schemas.mp own
    refine Part.sound_schemas.mpr ⟨seated, fun item member => ?_⟩
    rcases List.mem_append.mp member with old | new
    · exact all item old
    · cases List.mem_singleton.mp new
      exact sound_null
  | data value =>
    have free := (Part.sound_data.mp own).2 (by simp [Position.of?_eq])
    simp only [addNull, partValue] at done
    split at done
    next items listed => cases done; exact beside (Value.hasKey_members free listed)
    next => cases done
  | reference target name =>
    simp only [addNull, partValue] at done
    split at done
    next items listed => cases done; exact beside (Value.hasKey_members rfl listed)
    next => cases done
  | schema inner => cases own.1
  | members items => cases own.1

theorem Sound.nullable {flagged : Bool} (sound : schema.Sound base known)
    (done : schema.nullable? flagged = .ok changed) : changed.Sound base known := by
  obtain ⟨parts, rfl, admission⟩ := admission done
  have marked (name : String) (value : Value) (other : name ≠ "$ref") (apart : Position.of? name = none) :
      (keywords (Record.set parts name (.data value))).Sound base known :=
    sound.set (Part.sound_data.mpr ⟨other, fun inside => absurd apart inside⟩) rfl
  cases admission with
  | alternative found _ added =>
    have own := sound_keywords.mp sound _ _ (Record.mem_of_find? found)
    exact sound.set (sound_addNull own added) rfl
  | wrapped => simpa [Position.of?_eq] using sound
  | beside => exact sound_oneOf (by simpa using ⟨sound, sound_null⟩)
  | flagged => exact marked "nullable" _ (by simp) rfl
  | typed => exact marked "type" _ (by simp) rfl

end Schema

theorem CompiledField.sound_body {base : String} {known : String → Prop} {properties : Part Schema}
    (own : properties.Sound base known "properties") (required : List Value) (title description : Option Value) :
    (CompiledField.body properties required title description).Sound base known := by
  apply Schema.sound_keywords.mpr
  intro key part member
  cases CompiledField.says_of_mem rfl member with
  | properties => exact own
  | type | required | title | description => simp [Position.of?_eq]

theorem Setting.widened_sound {setting : Setting} {base : String} {known : String → Prop} {nullable : Bool}
    {schema widened : Schema} (sound : schema.Sound base known)
    (done : setting.widened nullable schema = .ok widened) : widened.Sound base known := by
  unfold Setting.widened at done
  split at done
  · exact sound.nullable done
  · cases done; exact sound

/-- Nothing that is done to schemas makes references. -/
theorem Setting.sound_closed (setting : Setting) (base : String) (known : String → Prop) :
    setting.Closed (Schema.Sound base known) where
  object := Schema.sound_object
  choice _ := Schema.sound_choice
  array := Schema.sound_array
  oneOf := Schema.sound_oneOf
  product required title description sound :=
    CompiledField.sound_body (Part.sound_members.mpr ⟨rfl, sound⟩) required title description
  map sound done := Schema.sound_object.set (Part.sound_schema.mpr ⟨rfl, sound⟩) done
  annotated {key _ _ _} member sound done := by
    simp only [List.mem_cons, List.not_mem_nil, or_false] at member
    rcases member with rfl | rfl | rfl <;> exact sound.annotate (by simp) rfl done
  widened sound done := setting.widened_sound sound done

end Schemata
