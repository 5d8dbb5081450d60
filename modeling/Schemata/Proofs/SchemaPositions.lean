import Schemata.Proofs.Records
import Schemata.Schema

/-! Where schemas stand inside a schema. A reader of the written schema goes by its keywords; what
the compiler built says by itself where its schemas are. Whatever the reader finds at a schema
position was either built by the compiler or lies in data that was taken over as it was given. -/

namespace Schemata

abbrev Object := List (Value × Value)

/-- What the value of a keyword is for a reader: a schema, a list of schemas, or schemas by name. -/
inductive Position where
  | schema
  | list
  | members
  deriving DecidableEq

def Position.of? : String → Option Position
  | "items" | "additionalProperties" | "not" => some .schema
  | "oneOf" | "anyOf" | "allOf" => some .list
  | "properties" | "patternProperties" => some .members
  | _ => none

theorem Position.of?_eq (name : String) :
    Position.of? name =
      if name ∈ ["items", "additionalProperties", "not"] then some .schema
      else if name ∈ ["oneOf", "anyOf", "allOf"] then some .list
      else if name ∈ ["properties", "patternProperties"] then some .members
      else none := by
  unfold Position.of?
  split <;> simp_all

namespace Value

mutual

/-- The objects that a reader meets as schemas in a value at a position. -/
def objectsAt : Position → Value → List Object
  | .schema, .map entries => entries :: keywordObjects entries
  | .list, .list items => itemObjects items
  | .members, .map entries => memberObjects entries
  | position, .knot _ collection => objectsAt position collection
  | _, _ => []

def keywordObjects : Object → List Object
  | [] => []
  | (.text name, value) :: rest =>
    match Position.of? name with
    | some position => objectsAt position value ++ keywordObjects rest
    | none => keywordObjects rest
  | _ :: rest => keywordObjects rest

def itemObjects : List Value → List Object
  | [] => []
  | item :: rest => objectsAt .schema item ++ itemObjects rest

def memberObjects : Object → List Object
  | [] => []
  | (_, value) :: rest => objectsAt .schema value ++ memberObjects rest

end

mutual

def hasKey (name : String) : Value → Bool
  | .map entries => entriesHaveKey name entries
  | .list items => itemsHaveKey name items
  | .set members => itemsHaveKey name members
  | .pair first second => hasKey name first || hasKey name second
  | .knot _ collection => hasKey name collection
  | _ => false

def itemsHaveKey (name : String) : List Value → Bool
  | [] => false
  | item :: rest => hasKey name item || itemsHaveKey name rest

def entriesHaveKey (name : String) : Object → Bool
  | [] => false
  | (key, value) :: rest => key.isText name || hasKey name key || hasKey name value || entriesHaveKey name rest

end

end Value

def Part.held : Part Schema → List Schema
  | .data _ | .reference .. => []
  | .schema inner => [inner]
  | .schemas items => items
  | .members items => items.map Prod.snd

/-- One schema stands in another, at any depth. -/
inductive Schema.Inside : Schema → Schema → Prop where
  | self (schema : Schema) : Inside schema schema
  | keyword {inner sub : Schema} {parts : Schema.Parts} {key : String} {part : Part Schema}
      (member : (key, part) ∈ parts) (held : sub ∈ part.held) (inside : Inside inner sub) :
      Inside inner (.keywords parts)

def Schema.Everywhere (property : Schema → Prop) (schema : Schema) : Prop :=
  ∀ inner, inner.Inside schema → property inner

namespace Value

theorem mem_keywordObjects {object entries : Object} (found : object ∈ keywordObjects entries) :
    ∃ name value position, (.text name, value) ∈ entries ∧ Position.of? name = some position ∧
      object ∈ objectsAt position value := by
  induction entries with
  | nil => simp [keywordObjects] at found
  | cons head rest ih =>
    obtain ⟨key, value⟩ := head
    have later (found : object ∈ keywordObjects rest) : ∃ name held position,
        (.text name, held) ∈ (key, value) :: rest ∧ Position.of? name = some position ∧
          object ∈ objectsAt position held := by
      obtain ⟨name, held, position, member, known, inside⟩ := ih found
      exact ⟨name, held, position, List.mem_cons_of_mem _ member, known, inside⟩
    cases key with
    | text name =>
      rw [keywordObjects] at found
      split at found
      next position known =>
        rcases List.mem_append.mp found with first | found
        · exact ⟨name, value, position, List.mem_cons_self, known, first⟩
        · exact later found
      next => exact later found
    | _ => exact later (by simpa only [keywordObjects] using found)

theorem mem_itemObjects {object : Object} {items : List Value} (found : object ∈ itemObjects items) :
    ∃ item ∈ items, object ∈ objectsAt .schema item := by
  induction items with
  | nil => simp [itemObjects] at found
  | cons item rest ih =>
    rw [itemObjects] at found
    rcases List.mem_append.mp found with first | later
    · exact ⟨item, List.mem_cons_self, first⟩
    · obtain ⟨other, member, inside⟩ := ih later
      exact ⟨other, List.mem_cons_of_mem _ member, inside⟩

theorem mem_memberObjects {object entries : Object} (found : object ∈ memberObjects entries) :
    ∃ key value, (key, value) ∈ entries ∧ object ∈ objectsAt .schema value := by
  induction entries with
  | nil => simp [memberObjects] at found
  | cons head rest ih =>
    obtain ⟨key, value⟩ := head
    rw [memberObjects] at found
    rcases List.mem_append.mp found with first | later
    · exact ⟨key, value, List.mem_cons_self, first⟩
    · obtain ⟨other, held, member, inside⟩ := ih later
      exact ⟨other, held, List.mem_cons_of_mem _ member, inside⟩

theorem itemsHaveKey_eq_false {name : String} {items : List Value} :
    itemsHaveKey name items = false ↔ ∀ item ∈ items, item.hasKey name = false := by
  induction items with
  | nil => simp [itemsHaveKey]
  | cons item rest ih => simp [itemsHaveKey, ih]

theorem entriesHaveKey_eq_false {name : String} {entries : Object} :
    entriesHaveKey name entries = false ↔
      ∀ key value, (key, value) ∈ entries →
        key.isText name = false ∧ key.hasKey name = false ∧ value.hasKey name = false := by
  induction entries with
  | nil => simp [entriesHaveKey]
  | cons head rest ih =>
    obtain ⟨key, value⟩ := head
    simp only [entriesHaveKey, Bool.or_eq_false_iff, ih, List.mem_cons, Prod.mk.injEq]
    constructor
    · intro clean other held member
      obtain ⟨⟨⟨first, second⟩, third⟩, later⟩ := clean
      rcases member with ⟨rfl, rfl⟩ | member
      · exact ⟨first, second, third⟩
      · exact later other held member
    · intro all
      obtain ⟨first, second, third⟩ := all key value (.inl ⟨rfl, rfl⟩)
      exact ⟨⟨⟨first, second⟩, third⟩, fun other held member => all other held (.inr member)⟩

/-- What a mapping has as a key nowhere is a keyword of no object at a schema position. -/
theorem notMem_of_hasKey {name : String} (value : Value) (free : value.hasKey name = false) {position : Position}
    {object : Object} (found : object ∈ objectsAt position value) (target : Value) :
    (.text name, target) ∉ object := by
  cases value with
  | map entries =>
    have clean := entriesHaveKey_eq_false.mp (show entriesHaveKey name entries = false from free)
    cases position with
    | schema =>
      rcases List.mem_cons.mp found with rfl | found
      · intro member
        simpa [isText] using (clean _ _ member).1
      · obtain ⟨key, value, position, member, -, inside⟩ := mem_keywordObjects found
        have smaller := List.sizeOf_lt_of_mem member
        exact notMem_of_hasKey value (clean _ _ member).2.2 inside target
    | members =>
      obtain ⟨key, value, member, inside⟩ := mem_memberObjects found
      have smaller := List.sizeOf_lt_of_mem member
      exact notMem_of_hasKey value (clean _ _ member).2.2 inside target
    | list => simp [objectsAt] at found
  | list items =>
    have clean := itemsHaveKey_eq_false.mp (show itemsHaveKey name items = false from free)
    cases position with
    | list =>
      obtain ⟨item, member, inside⟩ := mem_itemObjects found
      have smaller := List.sizeOf_lt_of_mem member
      exact notMem_of_hasKey item (clean item member) inside target
    | schema | members => simp [objectsAt] at found
  | knot mark collection =>
    exact notMem_of_hasKey collection free (by simpa only [objectsAt] using found) target
  | _ => cases position <;> simp [objectsAt] at found
termination_by sizeOf value
decreasing_by
  all_goals subst_vars
  all_goals try simp only [Prod.mk.sizeOf_spec] at smaller
  all_goals simp
  all_goals omega

mutual

theorem hasKey_replace {name : String} {mark : Nat} {whole : Value} (clean : whole.hasKey name = false) :
    (value : Value) → value.hasKey name = false → (replace mark whole value).hasKey name = false
  | .again other isMapping, _ => by
    rw [replace]
    split
    · exact clean
    · rfl
  | .knot other collection, free => by
    rw [replace]
    split
    · exact free
    · exact hasKey_replace clean collection free
  | .list items, free => itemsHaveKey_replace clean items free
  | .map entries, free => entriesHaveKey_replace clean entries free
  | .pair first second, free => by
    simp only [hasKey, replace, Bool.or_eq_false_iff] at free ⊢
    exact ⟨hasKey_replace clean first free.1, hasKey_replace clean second free.2⟩
  | .null, _ | .bool _, _ | .int _, _ | .float _, _ | .text _, _ | .date _, _ | .moment _, _ | .bytes _, _ => rfl
  | .set _, free => free

theorem itemsHaveKey_replace {name : String} {mark : Nat} {whole : Value} (clean : whole.hasKey name = false) :
    (items : List Value) → itemsHaveKey name items = false →
      itemsHaveKey name (replaceItems mark whole items) = false
  | [], _ => rfl
  | item :: rest, free => by
    simp only [itemsHaveKey, replaceItems, Bool.or_eq_false_iff] at free ⊢
    exact ⟨hasKey_replace clean item free.1, itemsHaveKey_replace clean rest free.2⟩

theorem entriesHaveKey_replace {name : String} {mark : Nat} {whole : Value} (clean : whole.hasKey name = false) :
    (entries : Object) → entriesHaveKey name entries = false →
      entriesHaveKey name (replaceEntries mark whole entries) = false
  | [], _ => rfl
  | (key, value) :: rest, free => by
    simp only [entriesHaveKey, replaceEntries, Bool.or_eq_false_iff] at free ⊢
    obtain ⟨⟨⟨first, second⟩, third⟩, later⟩ := free
    exact ⟨⟨⟨first, second⟩, hasKey_replace clean value third⟩, entriesHaveKey_replace clean rest later⟩

end

theorem hasKey_untied {name : String} {value : Value} (free : value.hasKey name = false) :
    value.untied.hasKey name = false := by
  cases value with
  | knot mark collection => exact hasKey_replace free collection free
  | _ => exact free

theorem hasKey_members {name : String} {value : Value} (free : value.hasKey name = false) {members : List Value}
    (listed : value.members? = some members) : ∀ member ∈ members, member.hasKey name = false := by
  have clean := hasKey_untied free
  unfold members? at listed
  split at listed
  next => cases listed; simp [hasKey]
  next => cases listed; simp [hasKey]
  next untied => cases listed; rw [untied] at clean; exact itemsHaveKey_eq_false.mp clean
  next entries untied =>
    cases listed
    rw [untied] at clean
    intro member inside
    obtain ⟨⟨key, held⟩, present, rfl⟩ := List.mem_map.mp inside
    exact (entriesHaveKey_eq_false.mp clean key held present).2.1
  next untied => cases listed; rw [untied] at clean; exact itemsHaveKey_eq_false.mp clean
  next untied =>
    cases listed
    rw [untied] at clean
    simpa [hasKey] using clean
  next => cases listed

theorem record_of_record? {entries : Object} {record : Record Value} (read : record? entries = some record) :
    Value.record record = .map entries := by
  suffices written : record.map (fun entry => (text entry.1, entry.2)) = entries from congrArg map written
  induction entries generalizing record with
  | nil => cases read; rfl
  | cons head rest ih =>
    obtain ⟨key, value⟩ := head
    cases key with
    | text name =>
      obtain ⟨later, again, rfl⟩ := Option.map_eq_some_iff.mp (by simpa only [record?] using read)
      rw [List.map_cons, ih again]
    | _ => cases read

end Value

namespace Schema

variable {property : Schema → Prop}

theorem everywhere_data {value : Value} : Everywhere property (.data value) ↔ property (.data value) := by
  constructor
  · exact fun all => all _ (.self _)
  · intro holds inner inside
    cases inside
    exact holds

theorem everywhere_keywords {parts : Parts} :
    Everywhere property (.keywords parts) ↔
      property (.keywords parts) ∧
        ∀ key part, (key, part) ∈ parts → ∀ sub ∈ part.held, Everywhere property sub := by
  constructor
  · exact fun all => ⟨all _ (.self _), fun key part member sub held inner inside => all inner (.keyword member held inside)⟩
  · intro both inner inside
    cases inside with
    | self => exact both.1
    | keyword member held inside => exact both.2 _ _ member _ held inner inside

theorem Everywhere.imp {other : Schema → Prop} {schema : Schema} (all : Everywhere property schema)
    (implies : ∀ inner, property inner → other inner) : Everywhere other schema :=
  fun inner inside => implies inner (all inner inside)

private theorem sizeOf_held {part : Part Schema} {sub : Schema} (held : sub ∈ part.held) : sizeOf sub < sizeOf part := by
  cases part with
  | data | reference => cases held
  | schema schema => cases List.mem_singleton.mp held; simp
  | schemas items =>
    have smaller := List.sizeOf_lt_of_mem (show sub ∈ items from held)
    simp only [Part.schemas.sizeOf_spec]
    omega
  | members items =>
    obtain ⟨⟨key, value⟩, member, rfl⟩ := List.mem_map.mp held
    have smaller := List.sizeOf_lt_of_mem member
    simp only [Part.members.sizeOf_spec, Prod.mk.sizeOf_spec] at smaller ⊢
    omega

/-- Induction into the schemas that the keywords hold. -/
theorem held_induction {motive : Schema → Prop} (data : ∀ value, motive (.data value))
    (keywords : ∀ parts : Parts, (∀ key part, (key, part) ∈ parts → ∀ sub ∈ part.held, motive sub) →
      motive (.keywords parts)) (schema : Schema) : motive schema := by
  cases schema with
  | data value => exact data value
  | keywords parts =>
    apply keywords parts
    intro key part member sub held
    have smaller : sizeOf sub < sizeOf parts := by
      have inner := sizeOf_held held
      have outer := List.sizeOf_lt_of_mem member
      simp only [Prod.mk.sizeOf_spec] at outer
      omega
    exact held_induction data keywords sub
termination_by sizeOf schema
decreasing_by simp; omega

theorem entries_eq_map (parts : Parts) : entries parts = parts.map fun (key, part) => (.text key, partValue part) := by
  induction parts with
  | nil => rfl
  | cons head rest ih => rw [entries, ih, List.map_cons]

theorem values_eq_map (items : List Schema) : values items = items.map toValue := by
  induction items with
  | nil => rfl
  | cons item rest ih => rw [values, ih, List.map_cons]

theorem memberEntries_eq_map (items : List (String × Schema)) :
    memberEntries items = items.map fun (name, schema) => (.text name, schema.toValue) := by
  induction items with
  | nil => rfl
  | cons item rest ih => rw [memberEntries, ih, List.map_cons]

theorem mem_entries {parts : Parts} {entry : Value × Value} (member : entry ∈ entries parts) :
    ∃ key part, (key, part) ∈ parts ∧ entry = (.text key, partValue part) := by
  rw [entries_eq_map] at member
  obtain ⟨⟨key, part⟩, listed, rfl⟩ := List.mem_map.mp member
  exact ⟨key, part, listed, rfl⟩

theorem mem_values {items : List Schema} {value : Value} (member : value ∈ values items) :
    ∃ item ∈ items, value = item.toValue := by
  rw [values_eq_map] at member
  obtain ⟨item, listed, rfl⟩ := List.mem_map.mp member
  exact ⟨item, listed, rfl⟩

theorem mem_memberEntries {items : List (String × Schema)} {entry : Value × Value}
    (member : entry ∈ memberEntries items) : ∃ item ∈ items, entry.2 = item.2.toValue := by
  rw [memberEntries_eq_map] at member
  obtain ⟨item, listed, rfl⟩ := List.mem_map.mp member
  exact ⟨item, listed, rfl⟩

theorem mem_dataParts {record : Record Value} {key : String} {part : Part Schema} (member : (key, part) ∈ dataParts record) :
    ∃ value, (key, value) ∈ record ∧ part = .data value := by
  obtain ⟨⟨name, value⟩, listed, same⟩ := List.mem_map.mp member
  cases same
  exact ⟨value, listed, rfl⟩

theorem find?_dataParts (record : Record Value) (name : String) :
    Record.find? (dataParts record) name = (Record.find? record name).map .data :=
  Record.find?_map _ record name

theorem ofValue_cases (value : Value) :
    ofValue value = .data value ∨ ∃ record, value = .record record ∧ ofValue value = ofRecord record := by
  cases value with
  | map entries =>
    cases read : Value.record? entries with
    | none => exact .inl (by simp only [ofValue, read])
    | some record => exact .inr ⟨record, (Value.record_of_record? read).symm, by simp only [ofValue, read]⟩
  | _ => exact .inl rfl

end Schema

/-- Schemas stand only under keywords where a reader expects them. -/
def Part.Seated (key : String) : Part Schema → Prop
  | .data _ | .reference .. => True
  | .schema _ => Position.of? key = some .schema
  | .schemas _ => Position.of? key = some .list
  | .members _ => Position.of? key = some .members

def Schema.Seated : Schema → Prop
  | .keywords parts => ∀ key part, (key, part) ∈ parts → part.Seated key
  | .data _ => True

namespace Schema

inductive Origin (object : Object) : Schema → Prop where
  | built {schema : Schema} {parts : Parts} (inside : (keywords parts).Inside schema)
      (same : object = entries parts) : Origin object schema
  | given {schema : Schema} {parts : Parts} {key : String} {value : Value} {position : Position}
      (inside : (keywords parts).Inside schema) (member : (key, Part.data value) ∈ parts)
      (known : Position.of? key = some position) (found : object ∈ value.objectsAt position) : Origin object schema
  | plain {schema : Schema} {value : Value} (inside : (data value).Inside schema)
      (found : object ∈ value.objectsAt .schema) : Origin object schema

theorem Origin.keyword {object : Object} {parts : Parts} {key : String} {part : Part Schema} {sub : Schema}
    (origin : Origin object sub) (member : (key, part) ∈ parts) (held : sub ∈ part.held) :
    Origin object (keywords parts) := by
  cases origin with
  | built inside same => exact .built (.keyword member held inside) same
  | given inside inner known found => exact .given (.keyword member held inside) inner known found
  | plain inside found => exact .plain (.keyword member held inside) found

/-- A written schema shows a reader the objects that the compiler built, and those in data. -/
theorem origin_of_objectsAt {schema : Schema} (seated : schema.Everywhere Seated) {object : Object}
    (found : object ∈ schema.toValue.objectsAt .schema) : Origin object schema := by
  induction schema using held_induction with
  | data value => exact .plain (.self _) found
  | keywords parts ih =>
    obtain ⟨own, below⟩ := everywhere_keywords.mp seated
    have lift {key : String} {part : Part Schema} {sub : Schema} (member : (key, part) ∈ parts)
        (held : sub ∈ part.held) (inside : object ∈ sub.toValue.objectsAt .schema) : Origin object (keywords parts) :=
      (ih key part member sub held (below key part member sub held) inside).keyword member held
    rcases List.mem_cons.mp found with rfl | found
    · exact .built (.self _) rfl
    obtain ⟨name, value, position, listed, known, inside⟩ := Value.mem_keywordObjects found
    obtain ⟨key, part, member, same⟩ := mem_entries listed
    cases same
    have seat := own name part member
    cases part with
    | data value => exact .given (.self _) member known inside
    | reference base target => cases position <;> simp [partValue, Value.objectsAt] at inside
    | schema sub =>
      cases known.symm.trans seat
      exact lift member List.mem_cons_self inside
    | schemas items =>
      cases known.symm.trans seat
      obtain ⟨_, stands, inside⟩ := Value.mem_itemObjects (by simpa only [partValue, Value.objectsAt] using inside)
      obtain ⟨sub, held, rfl⟩ := mem_values stands
      exact lift member held inside
    | members items =>
      cases known.symm.trans seat
      obtain ⟨_, written, stands, inside⟩ :=
        Value.mem_memberObjects (by simpa only [partValue, Value.objectsAt] using inside)
      obtain ⟨⟨label, sub⟩, held, same⟩ := mem_memberEntries stands
      cases show written = sub.toValue from same
      exact lift member (List.mem_map_of_mem held) inside

end Schema

end Schemata
