import Schemata.Proofs.ClosedProperties
import Schemata.Proofs.SchemaPositions

/-! Laws on what a keyword may hold wherever a schema is read. Readers differ in what else they take for
schemas, but not on the keywords that the compiler writes itself. They go by values: a collection that holds
itself is read as far as one likes, and alternatives are gone through whatever holds them, as the compiler
does when it adds one. So a law on a written schema depends on the data alone, and not on how it is tied. -/

namespace Schemata

/-- Under which keywords a reader looks for schemas. -/
structure Seating where
  seat? : String → Option Position
  items : seat? "items" = some .schema
  values : seat? "additionalProperties" = some .schema
  oneOf : seat? "oneOf" = some .list
  allOf : seat? "allOf" = some .list
  properties : seat? "properties" = some .members
  data : ∀ key ∈ ["type", "nullable", "$ref", "title", "description", "example", "enum", "required"], seat? key = none

def Seating.usual : Seating :=
  ⟨Position.of?, rfl, rfl, rfl, rfl, rfl, by simp [Position.of?_eq]⟩

namespace Value

/-- A reader that looks for schemas at a position of a value finds a keyword with what it holds. -/
inductive Finds (seating : Seating) : Position → Value → String → Value → Prop where
  | keyword {value held : Value} {entries : Object} {key : String} (mapping : value.entries? = some entries)
      (member : (.text key, held) ∈ entries) : Finds seating .schema value key held
  | inside {value inner held : Value} {entries : Object} {name key : String} {position : Position}
      (mapping : value.entries? = some entries) (member : (.text name, inner) ∈ entries)
      (seat : seating.seat? name = some position) (finds : Finds seating position inner key held) :
      Finds seating .schema value key held
  | alternative {value inner held : Value} {members : List Value} {key : String}
      (listed : value.members? = some members) (member : inner ∈ members) (finds : Finds seating .schema inner key held) :
      Finds seating .list value key held
  | property {value name inner held : Value} {entries : Object} {key : String}
      (mapping : value.entries? = some entries) (member : (name, inner) ∈ entries)
      (finds : Finds seating .schema inner key held) : Finds seating .members value key held

/-- Wherever a schema is read in a value at a position, its keywords keep to a law. -/
def Obeys (seating : Seating) (law : String → Value → Prop) (position : Position) (value : Value) : Prop :=
  ∀ key held, value.Finds seating position key held → law key held

/-- A keyword may hold a value, and the value obeys the law where schemas stand under the keyword. -/
def Seats (seating : Seating) (law : String → Value → Prop) (key : String) (value : Value) : Prop :=
  law key value ∧ ∀ position, seating.seat? key = some position → value.Obeys seating law position

variable {seating : Seating} {law : String → Value → Prop} {value : Value} {entries : Object}

theorem obeys_schema (mapping : value.entries? = some entries) :
    value.Obeys seating law .schema ↔ ∀ key held, (.text key, held) ∈ entries → held.Seats seating law key := by
  constructor
  · intro obeys key held member
    exact ⟨obeys key held (.keyword mapping member),
      fun position seat other inner found => obeys other inner (.inside mapping member seat found)⟩
  · intro all key held found
    cases found with
    | keyword again member =>
      cases mapping.symm.trans again
      exact (all key held member).1
    | inside again member seat found =>
      cases mapping.symm.trans again
      exact (all _ _ member).2 _ seat key held found

theorem obeys_list {members : List Value} (listed : value.members? = some members) :
    value.Obeys seating law .list ↔ ∀ item ∈ members, item.Obeys seating law .schema := by
  constructor
  · exact fun obeys item member key held found => obeys key held (.alternative listed member found)
  · intro all key held found
    cases found with
    | alternative again member found =>
      cases listed.symm.trans again
      exact all _ member key held found

theorem obeys_members (mapping : value.entries? = some entries) :
    value.Obeys seating law .members ↔ ∀ name held, (name, held) ∈ entries → held.Obeys seating law .schema := by
  constructor
  · exact fun obeys name inner member key held found => obeys key held (.property mapping member found)
  · intro all key held found
    cases found with
    | property again member found =>
      cases mapping.symm.trans again
      exact all _ _ member key held found

@[simp] theorem obeys_record_nil : (record []).Obeys seating law .schema := (obeys_schema rfl).mpr nofun

@[simp] theorem obeys_record_cons {key : String} {fragment : Record Value} :
    (record ((key, value) :: fragment)).Obeys seating law .schema ↔
      value.Seats seating law key ∧ (record fragment).Obeys seating law .schema := by
  rw [obeys_schema rfl, obeys_schema rfl, List.map_cons]
  simp only [List.mem_cons, Prod.mk.injEq, text.injEq]
  constructor
  · exact fun all => ⟨all key value (.inl ⟨rfl, rfl⟩), fun name held member => all name held (.inr member)⟩
  · intro both name held member
    rcases member with ⟨rfl, rfl⟩ | member
    · exact both.1
    · exact both.2 name held member

theorem seats_apart {key : String} (apart : seating.seat? key = none) : value.Seats seating law key ↔ law key value := by
  simp [Seats, apart]

theorem obeys_text (text : String) (position : Position) : (Value.text text).Obeys seating law position := by
  intro key held found
  cases found with
  | keyword mapping | inside mapping | property mapping => cases mapping
  | alternative listed member found =>
    cases listed
    obtain ⟨point, -, rfl⟩ := List.mem_map.mp member
    cases found with
    | keyword mapping | inside mapping => cases mapping

@[simp] theorem seats_text {text key : String} : (Value.text text).Seats seating law key ↔ law key (.text text) :=
  ⟨And.left, fun own => ⟨own, fun position _ => obeys_text text position⟩⟩

end Value

def Schema.Obeys (seating : Seating) (law : String → Value → Prop) (schema : Schema) : Prop :=
  schema.toValue.Obeys seating law .schema

def Part.Obeys (seating : Seating) (law : String → Value → Prop) (key : String) (part : Part Schema) : Prop :=
  (Schema.partValue part).Seats seating law key

namespace Schema

variable {seating : Seating} {law : String → Value → Prop} {schema changed : Schema} {key : String}

theorem Obeys.imp {other : String → Value → Prop} (obeys : schema.Obeys seating law)
    (implies : ∀ key held, law key held → other key held) : schema.Obeys seating other :=
  fun key held found => implies key held (obeys key held found)

theorem obeys_keywords {parts : Parts} :
    (keywords parts).Obeys seating law ↔ ∀ key part, (key, part) ∈ parts → part.Obeys seating law key := by
  have mapping : (keywords parts).toValue.entries? = some (entries parts) := rfl
  refine (Value.obeys_schema mapping).trans ⟨?_, ?_⟩
  · intro all key part member
    exact all key _ (entries_eq_map parts ▸ List.mem_map.mpr ⟨_, member, rfl⟩)
  · intro all key held member
    obtain ⟨name, part, listed, same⟩ := mem_entries member
    cases same
    exact all _ part listed

@[simp] theorem obeys_nil : (keywords []).Obeys seating law := obeys_keywords.mpr nofun

@[simp] theorem obeys_cons {part : Part Schema} {rest : Parts} :
    (keywords ((key, part) :: rest)).Obeys seating law ↔
      part.Obeys seating law key ∧ (keywords rest).Obeys seating law := by
  simp only [obeys_keywords, List.mem_cons, Prod.mk.injEq]
  constructor
  · exact fun all => ⟨all key part (.inl ⟨rfl, rfl⟩), fun other held member => all other held (.inr member)⟩
  · intro both other held member
    rcases member with ⟨rfl, rfl⟩ | member
    · exact both.1
    · exact both.2 other held member

theorem obeys_ofValue {value : Value} : (ofValue value).Obeys seating law ↔ value.Obeys seating law .schema := by
  rw [Obeys, toValue_ofValue]

theorem obeys_ofRecord {fragment : Record Value} :
    (ofRecord fragment).Obeys seating law ↔ (Value.record fragment).Obeys seating law .schema := by
  rw [Obeys, toValue_ofRecord]

theorem Obeys.type {parts : Parts} (obeys : (keywords parts).Obeys seating law) {type : Value}
    (typed : type? parts = some type) : law "type" type := by
  exact (obeys_keywords.mp obeys _ _ (Record.mem_of_find? (find?_of_type? typed))).1

theorem Obeys.set {part : Part Schema} (obeys : schema.Obeys seating law) (own : part.Obeys seating law key)
    (done : schema.set key part = .ok changed) : changed.Obeys seating law := by
  cases schema with
  | data => cases done
  | keywords parts =>
    cases done
    refine obeys_keywords.mpr fun other held member => ?_
    rcases Record.mem_set member with same | old
    · cases same
      exact own
    · exact obeys_keywords.mp obeys other held old

end Schema

namespace Part

variable {seating : Seating} {law : String → Value → Prop} {key : String}

theorem obeys_apart {part : Part Schema} (apart : seating.seat? key = none) :
    part.Obeys seating law key ↔ law key (Schema.partValue part) :=
  Value.seats_apart apart

theorem obeys_schema {schema : Schema} (seat : seating.seat? key = some .schema) :
    (Part.schema schema).Obeys seating law key ↔ law key schema.toValue ∧ schema.Obeys seating law := by
  simp [Part.Obeys, Value.Seats, seat, Schema.partValue, Schema.Obeys]

theorem obeys_schemas {items : List Schema} (seat : seating.seat? key = some .list) :
    (Part.schemas items).Obeys seating law key ↔
      law key (.list (Schema.values items)) ∧ ∀ item ∈ items, item.Obeys seating law := by
  have all : (Value.list (Schema.values items)).Obeys seating law .list ↔ ∀ item ∈ items, item.Obeys seating law := by
    rw [Value.obeys_list rfl, Schema.values_eq_map, List.forall_mem_map]
    rfl
  simp [Part.Obeys, Value.Seats, seat, Schema.partValue, all]

theorem obeys_members {items : List (String × Schema)} (seat : seating.seat? key = some .members) :
    (Part.members items).Obeys seating law key ↔
      law key (.map (Schema.memberEntries items)) ∧ ∀ item ∈ items.map Prod.snd, item.Obeys seating law := by
  have all : (Value.map (Schema.memberEntries items)).Obeys seating law .members ↔
      ∀ item ∈ items.map Prod.snd, item.Obeys seating law := by
    rw [Value.obeys_members rfl, Schema.memberEntries_eq_map, List.forall_mem_map]
    constructor
    · exact fun all item member => all _ _ (List.mem_map.mpr ⟨item, member, rfl⟩)
    · intro all name held member
      obtain ⟨item, listed, same⟩ := List.mem_map.mp member
      cases same
      exact all item listed
  simp [Part.Obeys, Value.Seats, seat, Schema.partValue, all]

end Part

/-- A law admits what the compiler itself writes under keywords: of lists that stand under keywords only those
that are not empty. The mark of null that changes a type is left out. -/
structure Dialect.Writes (dialect : Dialect) (seating : Seating) (law : String → Value → Prop) : Prop where
  type (name : String) : law "type" (.text name)
  plain {key : String} (value : Value) :
    key ∈ ["title", "description", "example", "required", "items", "additionalProperties", "properties"] → law key value
  listed {key : String} (first : Value) (rest : List Value) :
    key ∈ ["enum", "oneOf", "allOf"] → law key (.list (first :: rest))
  reference (name : String) : law "$ref" (.text (dialect.base ++ name))
  flag : dialect.flagged = true → law "nullable" (.bool true)

namespace Dialect.Writes

variable {dialect : Dialect} {seating : Seating} {law : String → Value → Prop} {schema changed : Schema} {key : String}
  (writes : dialect.Writes seating law)

include writes

theorem obeys_plain (value : Value) (plain : key ∈ ["title", "description", "example", "required"]) :
    (Part.data value).Obeys seating law key := by
  refine (Part.obeys_apart (seating.data key ?_)).mpr (writes.plain _ (List.mem_append_left _ plain))
  exact (show ["title", "description", "example", "required"] ⊆ _ by simp) plain

theorem obeys_type (name : String) : (Part.data (.text name)).Obeys seating law "type" :=
  (Part.obeys_apart (seating.data _ (by simp))).mpr (writes.type name)

theorem obeys_reference (name : String) : (Schema.reference dialect.base name).Obeys seating law :=
  Schema.obeys_cons.mpr ⟨(Part.obeys_apart (seating.data _ (by simp))).mpr (writes.reference name), Schema.obeys_nil⟩

theorem obeys_null : Schema.null.Obeys seating law :=
  Schema.obeys_cons.mpr ⟨writes.obeys_type _, Schema.obeys_nil⟩

theorem obeys_object : Schema.object.Obeys seating law :=
  Schema.obeys_cons.mpr ⟨writes.obeys_type _, Schema.obeys_nil⟩

theorem obeys_choice (first : Value) (rest : List Value) :
    (Schema.choice (.list (first :: rest))).Obeys seating law := by
  have own : (Part.data (.list (first :: rest))).Obeys seating law "enum" :=
    (Part.obeys_apart (seating.data _ (by simp))).mpr (writes.listed first rest (by simp))
  simpa [Schema.choice] using ⟨writes.obeys_type "string", own⟩

theorem obeys_array {items : Schema} (obeys : items.Obeys seating law) : (Schema.array items).Obeys seating law := by
  have own : (Part.schema items).Obeys seating law "items" :=
    (Part.obeys_schema seating.items).mpr ⟨writes.plain _ (by simp), obeys⟩
  simpa [Schema.array] using ⟨writes.obeys_type "array", own⟩

theorem obeys_oneOf {first : Schema} {rest : List Schema} (all : ∀ item ∈ first :: rest, item.Obeys seating law) :
    (Schema.oneOf (first :: rest)).Obeys seating law :=
  Schema.obeys_cons.mpr
    ⟨(Part.obeys_schemas seating.oneOf).mpr ⟨writes.listed _ _ (by simp), all⟩, Schema.obeys_nil⟩

/-- Alternatives obey the law with null beside them, whatever held them. -/
theorem obeys_addNull {part widened : Part Schema} (own : part.Obeys seating law "oneOf")
    (done : Schema.addNull part = .ok widened) : widened.Obeys seating law "oneOf" := by
  have alternatives := own.2 .list seating.oneOf
  suffices listed : ∃ members, (Schema.partValue part).members? = some members ∧
      Schema.partValue widened = .list (members ++ [Schema.null.toValue]) by
    obtain ⟨members, listed, same⟩ := listed
    obtain ⟨first, rest, some⟩ := List.exists_cons_of_ne_nil (show members ++ [Schema.null.toValue] ≠ [] by simp)
    refine ⟨by rw [same, some]; exact writes.listed _ _ (by simp), fun position seat => ?_⟩
    cases seating.oneOf.symm.trans seat
    rw [same, Value.obeys_list rfl]
    intro item member
    rcases List.mem_append.mp member with old | new
    · exact (Value.obeys_list listed).mp alternatives item old
    · cases List.mem_singleton.mp new
      exact writes.obeys_null
  rcases Schema.addNull_eq_ok done with ⟨items, rfl, rfl⟩ | ⟨items, listed, rfl⟩
  · exact ⟨Schema.values items, rfl, by simp [Schema.partValue, Schema.values_eq_map]⟩
  · exact ⟨items, listed, rfl⟩

theorem obeys_nullable (obeys : schema.Obeys seating law)
    (widened : ∀ parts type, schema = .keywords parts → dialect.flagged = false → Schema.type? parts = some type →
      law "type" (Schema.typeWithNull type))
    (done : schema.nullable? dialect.flagged = .ok changed) : changed.Obeys seating law := by
  obtain ⟨parts, rfl, admission⟩ := Schema.admission done
  have flag (flagged : dialect.flagged = true) : (Part.data (.bool true)).Obeys seating law "nullable" :=
    (Part.obeys_apart (seating.data _ (by simp))).mpr (writes.flag flagged)
  cases admission with
  | alternative found _ added =>
    have own := Schema.obeys_keywords.mp obeys _ _ (Record.mem_of_find? found)
    exact obeys.set (writes.obeys_addNull own added) rfl
  | wrapped flagged =>
    have wrapped : (Part.schemas [.keywords parts]).Obeys seating law "allOf" :=
      (Part.obeys_schemas seating.allOf).mpr ⟨writes.listed _ _ (by simp), by simpa using obeys⟩
    simpa using ⟨wrapped, flag flagged⟩
  | beside => exact writes.obeys_oneOf (by simpa using ⟨obeys, writes.obeys_null⟩)
  | flagged flagged => exact obeys.set (flag flagged) rfl
  | typed unflagged typed =>
    exact obeys.set ((Part.obeys_apart (seating.data _ (by simp))).mpr (widened parts _ rfl unflagged typed)) rfl

theorem obeys_body {members : List (String × Schema)} (required : List Value) (title description : Option Value)
    (all : ∀ item ∈ members.map Prod.snd, item.Obeys seating law) :
    (CompiledField.body (.members members) required title description).Obeys seating law := by
  refine Schema.obeys_keywords.mpr fun key part member => ?_
  cases CompiledField.says_of_mem rfl member with
  | type => exact writes.obeys_type _
  | properties => exact (Part.obeys_members seating.properties).mpr ⟨writes.plain _ (by simp), all⟩
  | required | title | description => exact writes.obeys_plain _ (by simp)

theorem obeys_map {values : Schema} (obeys : values.Obeys seating law)
    (done : Schema.object.set "additionalProperties" (.schema values) = .ok changed) : changed.Obeys seating law :=
  writes.obeys_object.set ((Part.obeys_schema seating.values).mpr ⟨writes.plain _ (by simp), obeys⟩) done

theorem obeys_annotated {value : Option Value} (plain : key ∈ ["title", "description", "example"])
    (obeys : schema.Obeys seating law) (done : schema.annotate key value = .ok changed) :
    changed.Obeys seating law := by
  cases value with
  | none => cases done; exact obeys
  | some value => exact obeys.set (writes.obeys_plain value (List.mem_append_left ["required"] plain)) done

end Dialect.Writes

structure Dialect.Admits (dialect : Dialect) (seating : Seating) (law : String → Value → Prop) : Prop where
  type (name : String) : law "type" (.text name)
  plain {key : String} (value : Value) :
    key ∈ ["title", "description", "example", "enum", "required"] → law key value
  seat {key : String} {position : Position} (value : Value) : seating.seat? key = some position → law key value
  reference (name : String) : law "$ref" (.text (dialect.base ++ name))
  flag : dialect.flagged = true → law "nullable" (.bool true)
  widened {type : Value} : dialect.flagged = false → law "type" type → law "type" (Schema.typeWithNull type)

namespace Dialect.Admits

variable {dialect : Dialect} {seating : Seating} {law : String → Value → Prop}

theorem writes (admits : dialect.Admits seating law) : dialect.Writes seating law where
  type := admits.type
  plain {key} value plain := by
    simp only [List.mem_cons, List.not_mem_nil, or_false] at plain
    rcases plain with rfl | rfl | rfl | rfl | rfl | rfl | rfl
    iterate 4 exact admits.plain value (by simp)
    · exact admits.seat value seating.items
    · exact admits.seat value seating.values
    · exact admits.seat value seating.properties
  listed {key} first rest listed := by
    simp only [List.mem_cons, List.not_mem_nil, or_false] at listed
    rcases listed with rfl | rfl | rfl
    · exact admits.plain _ (by simp)
    · exact admits.seat _ seating.oneOf
    · exact admits.seat _ seating.allOf
  reference := admits.reference
  flag := admits.flag

/-- Keeping to the law is closed under all that is done to schemas. -/
theorem closed {setting : Setting} (admits : setting.dialect.Admits seating law) :
    setting.Closed (Schema.Obeys seating law) where
  object := admits.writes.obeys_object
  choice values := by
    have own : (Part.data (.texts values)).Obeys seating law "enum" :=
      (Part.obeys_apart (seating.data _ (by simp))).mpr (admits.plain _ (by simp))
    simpa [Schema.choice] using ⟨admits.writes.obeys_type "string", own⟩
  array := admits.writes.obeys_array
  oneOf all := Schema.obeys_cons.mpr
    ⟨(Part.obeys_schemas seating.oneOf).mpr ⟨admits.seat _ seating.oneOf, all⟩, Schema.obeys_nil⟩
  product := admits.writes.obeys_body
  map := admits.writes.obeys_map
  annotated := admits.writes.obeys_annotated
  widened {nullable _ _} obeys done := by
    cases nullable with
    | false => cases done; exact obeys
    | true =>
      refine admits.writes.obeys_nullable obeys (fun parts type same flagged typed => ?_) done
      subst same
      exact admits.widened flagged (obeys.type typed)

end Dialect.Admits

end Schemata
