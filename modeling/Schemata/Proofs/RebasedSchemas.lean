import Schemata.Proofs.BodyPairs
import Schemata.Proofs.WrittenSchemas

/-! Schemas whose references start with another base. Only what the compiler put in as a reference is
changed, and data stays as it was given. Whatever is done to a schema can as well be done after the change,
because nothing that is done looks at what references start with. -/

namespace Schemata

mutual

def Schema.rebase (base : String) : Schema → Schema
  | .keywords parts => .keywords (Schema.rebaseParts base parts)
  | .data value => .data value

def Part.rebase (base : String) : Part Schema → Part Schema
  | .data value => .data value
  | .reference _ name => .reference base name
  | .schema schema => .schema (schema.rebase base)
  | .schemas items => .schemas (Schema.rebaseItems base items)
  | .members items => .members (Schema.rebaseMembers base items)

def Schema.rebaseParts (base : String) : List (String × Part Schema) → List (String × Part Schema)
  | [] => []
  | (name, part) :: rest => (name, part.rebase base) :: Schema.rebaseParts base rest

def Schema.rebaseItems (base : String) : List Schema → List Schema
  | [] => []
  | schema :: rest => schema.rebase base :: Schema.rebaseItems base rest

def Schema.rebaseMembers (base : String) : List (String × Schema) → List (String × Schema)
  | [] => []
  | (name, schema) :: rest => (name, schema.rebase base) :: Schema.rebaseMembers base rest

end

variable (base : String)

namespace Schema

theorem rebaseParts_eq_map (parts : Parts) :
    rebaseParts base parts = parts.map fun (name, part) => (name, part.rebase base) := by
  induction parts with
  | nil => rfl
  | cons head rest ih => rw [rebaseParts, ih, List.map_cons]

theorem rebaseItems_eq_map (items : List Schema) : rebaseItems base items = items.map (rebase base) := by
  induction items with
  | nil => rfl
  | cons item rest ih => rw [rebaseItems, ih, List.map_cons]

theorem rebaseMembers_eq_map (items : List (String × Schema)) :
    rebaseMembers base items = items.map fun (name, schema) => (name, schema.rebase base) := by
  induction items with
  | nil => rfl
  | cons item rest ih => rw [rebaseMembers, ih, List.map_cons]

theorem rebase_keywords (parts : Parts) :
    (keywords parts).rebase base = .keywords (parts.map fun (name, part) => (name, part.rebase base)) := by
  rw [rebase, rebaseParts_eq_map]

variable {base} in
/-- Keywords that stay as they are hold parts that stay as they are. -/
theorem rebase_of_mem {parts : Parts} (plain : (keywords parts).rebase base = .keywords parts) {name : String}
    {part : Part Schema} (member : (name, part) ∈ parts) : part.rebase base = part := by
  rw [rebase_keywords, keywords.injEq] at plain
  have same := List.map_inj_left.mp (plain.trans (List.map_id parts).symm) _ member
  exact congrArg Prod.snd same

theorem rebase_ofRecord (record : Record Value) : (ofRecord record).rebase base = ofRecord record := by
  rw [ofRecord, rebase_keywords, dataParts, List.map_map]
  rfl

theorem rebase_ofValue (value : Value) : (ofValue value).rebase base = ofValue value := by
  rcases ofValue_cases value with same | ⟨record, -, same⟩ <;> rw [same]
  · rfl
  · exact rebase_ofRecord base record

theorem data_of_ofValue {value : Value} {parts : Parts} (own : ofValue value = .keywords parts) {name : String}
    {part : Part Schema} (member : (name, part) ∈ parts) : ∃ held, part = .data held := by
  rcases ofValue_cases value with same | ⟨record, -, same⟩ <;> cases same.symm.trans own
  obtain ⟨held, -, same⟩ := mem_dataParts member
  exact ⟨held, same⟩

theorem rebase_set (name : String) (part : Part Schema) (schema : Schema) :
    (schema.rebase base).set name (part.rebase base) = (schema.set name part).map (rebase base) := by
  cases schema with
  | data value => rfl
  | keywords parts =>
    rw [rebase_keywords, set, Record.set_map, set, Except.map, rebase_keywords]

theorem rebase_annotate (name : String) (value : Option Value) (schema : Schema) :
    (schema.rebase base).annotate name value = (schema.annotate name value).map (rebase base) := by
  cases value with
  | none => rfl
  | some value => exact rebase_set base name (.data value) schema

theorem rebase_described (title description : Option Value) (schema : Schema) :
    (schema.rebase base).described title description = (schema.described title description).map (rebase base) := by
  rw [described, described, rebase_annotate]
  cases schema.annotate "title" title with
  | error fault => rfl
  | ok titled => exact rebase_annotate base "description" description titled

private theorem type?_rebase (parts : Parts) :
    type? (parts.map fun (name, part) => (name, part.rebase base)) = type? parts := by
  rw [type?, type?, Record.find?_map]
  cases Record.find? parts "type" with
  | none => rfl
  | some part => cases part <;> rfl

private theorem rebase_marked (flagged : Bool) (parts : Parts) :
    (marked flagged parts).rebase base = marked flagged (parts.map fun (name, part) => (name, part.rebase base)) := by
  have set (name : String) (value : Value) :
      (keywords (Record.set parts name (.data value))).rebase base =
        keywords (Record.set (parts.map fun (name, part) => (name, part.rebase base)) name (.data value)) := by
    rw [rebase_keywords, ← Record.set_map]
    rfl
  unfold marked
  rw [type?_rebase]
  cases type? parts with
  | none => cases flagged <;> simp [oneOf, null, rebase, Part.rebase, rebaseParts, rebaseItems, rebaseParts_eq_map]
  | some type => cases flagged <;> exact set _ _

/-- Null is admitted in the same way, if no alternatives are read out of a reference. -/
theorem rebase_nullable? (flagged : Bool) {schema : Schema}
    (listed : ∀ parts part, schema = .keywords parts → Record.find? parts "oneOf" = some part →
      addNull (part.rebase base) = (addNull part).map (Part.rebase base)) :
    (schema.rebase base).nullable? flagged = (schema.nullable? flagged).map (rebase base) := by
  cases schema with
  | data value => rfl
  | keywords parts =>
    rw [rebase_keywords, nullable?_keywords, nullable?_keywords, Record.has_map, Record.find?_map]
    cases found : Record.find? parts "oneOf" with
    | none => exact congrArg Except.ok (rebase_marked base flagged parts).symm
    | some part =>
      cases Record.has parts "type" with
      | true => exact congrArg Except.ok (rebase_marked base flagged parts).symm
      | false =>
        simp only [Option.map_some]
        rw [listed parts part rfl found]
        cases addNull part with
        | error fault => rfl
        | ok widened =>
          simp only [Except.map]
          rw [Record.set_map, rebase_keywords]

end Schema

namespace CompiledField

variable {ν : Type}

def rebase (base : String) (field : CompiledField ν) : CompiledField ν :=
  { field with schema := field.schema.rebase base }

theorem requiredNames_rebase (fields : List (CompiledField ν)) :
    requiredNames (fields.map (rebase base)) = requiredNames fields := by
  induction fields with
  | nil => rfl
  | cons field rest ih =>
    simp only [requiredNames, List.map_cons, List.filter_cons] at ih ⊢
    by_cases required : field.required = true
    · rw [if_pos required, if_pos (show (rebase base field).required = true from required), List.map_cons, ih]
      rfl
    · rw [if_neg required, if_neg (show ¬ (rebase base field).required = true from required), ih]

theorem rebase_body (properties : Part Schema) (required : List Value) (title description : Option Value) :
    (body properties required title description).rebase base =
      body (properties.rebase base) required title description := by
  rw [body, body, Schema.rebase_keywords]
  cases required <;> cases title <;> cases description <;> rfl

theorem rebase_product (fields : List (CompiledField String)) (title description : Option Value) :
    (product fields title description).rebase base = product (fields.map (rebase base)) title description := by
  have properties : (fields.map (rebase base)).map (fun field => (field.name, field.schema)) =
      (fields.map fun field => (field.name, field.schema)).map fun (name, schema) => (name, schema.rebase base) := by
    rw [List.map_map, List.map_map]
    rfl
  rw [product, product, rebase_body, requiredNames_rebase, properties, Record.ofList_map, Part.rebase,
    Schema.rebaseMembers_eq_map]

/-- The body of a hand-written product, in which the properties are written out already. -/
def handProduct (fields : List (CompiledField Value)) (title description : Option Value) : Schema :=
  body (.data (.map (Value.ofEntries (fields.map fun field => (field.name, field.schema.toValue)))))
    (requiredNames fields) title description

end CompiledField

theorem Schema.rebase_oneOf (alternatives : List Schema) :
    (oneOf alternatives).rebase base = oneOf (alternatives.map (rebase base)) := by
  simp only [oneOf, rebase, rebaseParts, Part.rebase, rebaseItems_eq_map]

def ParameterRecord.rebase (base : String) (record : ParameterRecord Schema) : ParameterRecord Schema :=
  { record with schema := record.schema.rebase base }

def Compiled.rebase (base : String) : Compiled → Compiled
  | .single schema => .single (schema.rebase base)
  | .parameters records => .parameters (records.map (ParameterRecord.rebase base))

/-- A body with another base in its references, those among them that stand in properties which have been
written out already. -/
inductive Schema.Restates (base : String) (catalog : Catalog) : Schema → Schema → Prop where
  | built (body : Schema) : Restates base catalog body (body.rebase base)
  | written {shape : Shape} (held : .handwritten shape ∈ catalog.toList) (fields : List (CompiledField Value))
      (title description : Option Value) :
      Restates base catalog (CompiledField.handProduct fields title description)
        (CompiledField.handProduct (fields.map (CompiledField.rebase base)) title description)

variable {base}

/-- Where every type has been checked, nothing is written out before its time. -/
theorem Schema.Restates.eq_rebase {catalog : Catalog} (checked : ∀ shape, .handwritten shape ∉ catalog.toList)
    {body twin : Schema} (restates : Restates base catalog body twin) : twin = body.rebase base := by
  cases restates with
  | built => rfl
  | written held => exact absurd held (checked _)

theorem Record.eq_rebase {catalog : Catalog} (checked : ∀ shape, .handwritten shape ∉ catalog.toList)
    {table twin : Table} (all : List.Forall₂ (Pairs fun _ => Schema.Restates base catalog) table twin) :
    twin = table.map fun (name, body) => (name, body.rebase base) := by
  induction all with
  | nil => rfl
  | @cons head other _ _ pair _ ih =>
    obtain ⟨name, body⟩ := head
    obtain ⟨label, twin⟩ := other
    obtain ⟨rfl, own⟩ : name = label ∧ Schema.Restates base catalog body twin := pair
    rw [List.map_cons, ih, own.eq_rebase checked]

end Schemata
