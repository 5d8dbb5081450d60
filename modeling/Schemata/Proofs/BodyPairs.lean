import Schemata.Proofs.BodyShapes
import Schemata.Proofs.Records
import Mathlib.Data.Option.Basic

/-! Two bodies of one definition, in which references are shown in two ways. They have the same keywords
in the same order and differ only in the schemas of references, so what relates those relates the bodies. -/

namespace Schemata

namespace Record

variable {α β : Type} {related : String → α → β → Prop}

def Pairs (related : String → α → β → Prop) (first : String × α) (second : String × β) : Prop :=
  first.1 = second.1 ∧ related first.1 first.2 second.2

theorem forall₂_set {first : Record α} {second : Record β} (all : List.Forall₂ (Pairs related) first second)
    {name : String} {one : α} {other : β} (own : related name one other) :
    List.Forall₂ (Pairs related) (set first name one) (set second name other) := by
  induction all with
  | nil => exact .cons ⟨rfl, own⟩ .nil
  | @cons head second rest others pair more ih =>
    obtain ⟨key, old⟩ := head
    obtain ⟨label, kept⟩ := second
    obtain ⟨rfl, held⟩ : key = label ∧ related key old kept := pair
    simp only [set]
    split
    next same =>
      subst same
      exact .cons ⟨rfl, own⟩ more
    next => exact .cons ⟨rfl, held⟩ ih

theorem has_of_forall₂ {first : Record α} {second : Record β} (all : List.Forall₂ (Pairs related) first second)
    (name : String) : has second name = has first name := by
  induction all with
  | nil => rfl
  | @cons head other _ _ pair _ ih =>
    obtain ⟨key, value⟩ := head
    obtain ⟨label, twin⟩ := other
    obtain ⟨rfl, -⟩ : key = label ∧ related key value twin := pair
    simp only [has, find?, List.lookup_cons] at ih ⊢
    split
    · rfl
    · exact ih

theorem forall₂_ofList {first : List (String × α)} {second : List (String × β)}
    (all : List.Forall₂ (Pairs related) first second) :
    List.Forall₂ (Pairs related) (ofList first) (ofList second) := by
  have onto {start : Record α} {begun : Record β} (before : List.Forall₂ (Pairs related) start begun) :
      List.Forall₂ (Pairs related) (first.foldl (fun record entry => set record entry.1 entry.2) start)
        (second.foldl (fun record entry => set record entry.1 entry.2) begun) := by
    induction all generalizing start begun with
    | nil => exact before
    | @cons head other rest others pair more ih =>
      obtain ⟨key, value⟩ := head
      obtain ⟨label, twin⟩ := other
      obtain ⟨rfl, own⟩ : key = label ∧ related key value twin := pair
      exact ih (forall₂_set before own)
  exact onto .nil

end Record

namespace CompiledField

def product (fields : List (CompiledField String)) (title description : Option Value) : Schema :=
  body (.members (Record.ofList (fields.map fun field => (field.name, field.schema))))
    ((requiredNames fields).map .text) title description

/-- The body of a product goes on after its properties with what is required and with documentation. -/
theorem exists_body_eq (required : List Value) (title description : Option Value) : ∃ rest : Schema.Parts,
    (∀ properties, body properties required title description =
      .keywords (("type", .data (.text "object")) :: ("properties", properties) :: rest)) ∧
    ∀ name part, (name, part) ∈ rest →
      (name = "required" ∧ part = .data (.list required)) ∨ name = "title" ∨ name = "description" := by
  refine ⟨_, fun _ => rfl, fun name part member => ?_⟩
  simp only [List.append_eq, List.nil_append, List.mem_append] at member
  rcases member with (listed | listed) | listed
  · split at listed
    next names given =>
      cases List.mem_singleton.mp listed
      split at given
      · cases given
      · cases given
        exact .inl ⟨rfl, rfl⟩
    next => cases listed
  all_goals
    split at listed
    · cases List.mem_singleton.mp listed
      simp
    · cases listed

structure Pairs (related : Schema → Schema → Prop) (first second : CompiledField String) : Prop where
  name : first.name = second.name
  required : first.required = second.required
  schema : ∃ one other title description, related one other ∧
    one.described title description = .ok first.schema ∧ other.described title description = .ok second.schema

namespace Pairs

variable {related : Schema → Schema → Prop} {first second : List (CompiledField String)}

theorem requiredNames_eq (fields : List.Forall₂ (CompiledField.Pairs related) first second) :
    requiredNames first = requiredNames second := by
  induction fields with
  | nil => rfl
  | cons pair _ ih =>
    simp only [requiredNames, List.filter_cons, pair.required] at ih ⊢
    split <;> simp [ih, pair.name]

/-- The properties that related fields make of their types, with titles and descriptions set on them. -/
theorem properties (fields : List.Forall₂ (CompiledField.Pairs related) first second) {final : Schema → Schema → Prop}
    (describes : ∀ schema twin title description one two, related schema twin →
      schema.described title description = .ok one → twin.described title description = .ok two → final one two) :
    List.Forall₂ (Record.Pairs fun _ => final) (Record.ofList (first.map fun field => (field.name, field.schema)))
      (Record.ofList (second.map fun field => (field.name, field.schema))) := by
  apply Record.forall₂_ofList
  rw [List.forall₂_map_left_iff, List.forall₂_map_right_iff]
  apply fields.imp
  intro field twin pair
  obtain ⟨schema, other, title, description, own, here, there⟩ := pair.schema
  exact ⟨pair.name, describes schema other title description _ _ own here there⟩

end Pairs

end CompiledField

def Schema.mapping (values : Option Schema) (sample : Option Value) : Schema :=
  .keywords ([("type", .data (.text "object"))]
    ++ (values.map fun values => ("additionalProperties", Part.schema values)).toList
    ++ (sample.map fun sample => ("example", Part.data sample)).toList)

/-- Two bodies that are alike but for the schemas of references. -/
inductive Schema.Pairs (related : Schema → Schema → Prop) : Schema → Schema → Prop where
  | choice (values : List String) : Pairs related (.choice (.texts values)) (.choice (.texts values))
  | product {first second : List (CompiledField String)} (title description : Option Value)
      (fields : List.Forall₂ (CompiledField.Pairs related) first second) :
      Pairs related (CompiledField.product first title description) (CompiledField.product second title description)
  | map {one other : Option Schema} (values : Option.Rel related one other) (sample : Option Value) :
      Pairs related (.mapping one sample) (.mapping other sample)
  | union {first second : List Schema} (alternatives : List.Forall₂ related first second) :
      Pairs related (.oneOf first) (.oneOf second)

section Pairing

variable {setting twin : Setting} {shows other : TypeSpec → Schema → Prop}

theorem forall₂_join {left : α → β → Prop} {right : α → γ → Prop} {joined : β → γ → Prop} {items : List α}
    {first : List β} {second : List γ} (one : List.Forall₂ left items first) (two : List.Forall₂ right items second)
    (join : ∀ item ∈ items, ∀ a b, left item a → right item b → joined a b) : List.Forall₂ joined first second := by
  induction one generalizing second with
  | nil =>
    cases two
    exact .nil
  | cons head rest ih =>
    cases two with
    | cons headToo restToo =>
      refine .cons (join _ List.mem_cons_self _ _ head headToo) (ih restToo ?_)
      exact fun item member => join item (List.mem_cons_of_mem _ member)

theorem ShowsMap.mapping {valueType : Option Value} {keywords body : Schema} {sample : Option Value}
    (shown : ShowsMap shows valueType keywords) (annotated : keywords.annotate "example" sample = .ok body) :
    ∃ values, body = .mapping values sample ∧ Option.Rel (ShowsReference shows) valueType values := by
  cases valueType with
  | none =>
    cases show keywords = .object from shown
    refine ⟨none, ?_, .none⟩
    cases sample <;> cases annotated <;> rfl
  | some type =>
    obtain ⟨values, own, set⟩ := shown
    cases set
    refine ⟨some values, ?_, .some own⟩
    cases sample <;> cases annotated <;> rfl

/-- What the body of a product or a map may say beside that it is an object. -/
inductive Schema.OfObject : String × Part Schema → Prop where
  | properties (members : List (String × Schema)) : OfObject ("properties", .members members)
  | additional (values : Schema) : OfObject ("additionalProperties", .schema values)
  | required (names : List Value) : OfObject ("required", .data (.list names))
  | documentation {name : String} (known : name ∈ ["title", "description", "example"]) (part : Part Schema) :
      OfObject (name, part)

theorem Schema.OfObject.name {entry : String × Part Schema} (object : Schema.OfObject entry) :
    entry.1 ∈ ["properties", "additionalProperties", "required", "title", "description", "example"] := by
  cases object with
  | documentation known =>
    simp only [List.mem_cons, List.not_mem_nil, or_false] at known ⊢
    rcases known with rfl | rfl | rfl <;> simp
  | _ => simp

theorem Setting.ShowsBody.exists_object_eq {definition : Definition} {body : Schema}
    (kind : definition.kind = .product ∨ definition.kind = .map) (shown : setting.ShowsBody shows definition body) :
    ∃ rest, body = .keywords (("type", .data (.text "object")) :: rest) ∧ ∀ entry ∈ rest, Schema.OfObject entry := by
  cases definition with
  | scalar | sum | union | input => rcases kind with kind | kind <;> cases kind
  | product name fields title description contentType =>
    obtain ⟨compiled, -, rfl⟩ := shown
    obtain ⟨rest, body, passed⟩ := CompiledField.exists_body_eq
      ((CompiledField.requiredNames compiled).map .text) (givenText? title) (givenText? description)
    refine ⟨_, body _, fun entry member => ?_⟩
    rcases List.mem_cons.mp member with rfl | later
    · exact .properties _
    · obtain ⟨name, part⟩ := entry
      rcases passed name part later with ⟨rfl, rfl⟩ | rfl | rfl
      · exact .required _
      all_goals exact .documentation (by simp) part
  | map name valueType sample =>
    obtain ⟨keywords, shown, annotated⟩ := shown
    obtain ⟨values, rfl, -⟩ := shown.mapping annotated
    refine ⟨_, rfl, fun entry member => ?_⟩
    rcases List.mem_append.mp member with typed | sampled
    · obtain ⟨schema, -, rfl⟩ := Option.map_eq_some_iff.mp (Option.mem_toList.mp typed)
      exact .additional schema
    · obtain ⟨sample, -, rfl⟩ := Option.map_eq_some_iff.mp (Option.mem_toList.mp sampled)
      exact .documentation (by simp) _

variable {related : Schema → Schema → Prop}

theorem Setting.ShowsField.pairs {field : Field} {left right : CompiledField String}
    (same : setting.dialect = twin.dialect) (one : setting.ShowsField shows field left)
    (two : twin.ShowsField other field right)
    (references : ∀ spec a b, field.override? = none → TypeSpec.read true field.type = .ok spec →
      shows spec a → other spec b → related a b)
    (choices : ∀ nullable values schema, setting.widened nullable (.choice (.texts values)) = .ok schema →
      related schema schema) : CompiledField.Pairs related left right := by
  obtain ⟨spec, schema, described, read, typed, annotated, rfl⟩ := one
  obtain ⟨specToo, schemaToo, describedToo, again, typedToo, annotatedToo, rfl⟩ := two
  cases read.symm.trans again
  refine ⟨rfl, rfl, schema, schemaToo, _, _, ?_, annotated, annotatedToo⟩
  cases given : field.override? with
  | none =>
    simp only [ShowsType, given] at typed typedToo
    exact references spec schema schemaToo given read typed typedToo
  | some values =>
    simp only [ShowsType, given, widened, ← same] at typed typedToo
    cases typed.symm.trans typedToo
    exact choices spec.nullable values schema typed

theorem ShowsReference.pairs {type : Value} {left right : Schema} (one : ShowsReference shows type left)
    (two : ShowsReference other type right)
    (references : ∀ spec a b, TypeSpec.read false type = .ok spec → shows spec a → other spec b → related a b) :
    related left right := by
  obtain ⟨spec, read, typed⟩ := one
  obtain ⟨specToo, again, typedToo⟩ := two
  cases read.symm.trans again
  exact references spec left right read typed typedToo

theorem ShowsMap.pairs {valueType : Option Value} {keywords keywordsToo first second : Schema}
    {sample : Option Value} (one : ShowsMap shows valueType keywords) (two : ShowsMap other valueType keywordsToo)
    (here : keywords.annotate "example" sample = .ok first) (there : keywordsToo.annotate "example" sample = .ok second)
    (references : ∀ type spec a b, valueType = some type → TypeSpec.read false type = .ok spec →
      shows spec a → other spec b → related a b) : Schema.Pairs related first second := by
  obtain ⟨values, rfl, one⟩ := one.mapping here
  obtain ⟨valuesToo, rfl, two⟩ := two.mapping there
  refine .map ?_ sample
  cases one with
  | none =>
    cases two
    exact .none
  | some own =>
    cases two with
    | some ownToo => exact .some (own.pairs ownToo fun spec a b => references _ spec a b rfl)

/-- What two ways of showing references make of one definition. -/
theorem Setting.ShowsBody.pairs {definition : Definition} {first second : Schema}
    (named : definition.kind.isNamed = true) (same : setting.dialect = twin.dialect)
    (one : setting.ShowsBody shows definition first) (two : twin.ShowsBody other definition second)
    (references : ∀ spec a b, definition.Mentions spec → shows spec a → other spec b → related a b)
    (choices : ∀ nullable values schema, setting.widened nullable (.choice (.texts values)) = .ok schema →
      related schema schema) : Schema.Pairs related first second := by
  cases definition with
  | scalar | input => cases named
  | sum name values =>
    cases one
    cases two
    exact .choice values
  | product name fields title description contentType =>
    obtain ⟨compiled, all, rfl⟩ := one
    obtain ⟨compiledToo, allToo, rfl⟩ := two
    refine .product (givenText? title) (givenText? description) (forall₂_join all allToo ?_)
    intro field member left right here there
    exact here.pairs same there (fun spec a b plain read => references spec a b ⟨field, member, plain, read⟩) choices
  | map name valueType sample =>
    obtain ⟨keywords, shown, annotated⟩ := one
    obtain ⟨keywordsToo, shownToo, annotatedToo⟩ := two
    exact shown.pairs shownToo annotated annotatedToo
      fun type spec a b given read => references spec a b ⟨type, given, read⟩
  | union name alternatives =>
    obtain ⟨schemas, all, rfl⟩ := one
    obtain ⟨schemasToo, allToo, rfl⟩ := two
    refine .union (forall₂_join all allToo ?_)
    intro type member left right here there
    exact here.pairs there fun spec a b read => references spec a b ⟨type, member, read⟩

end Pairing

theorem Schema.Pairs.eq {first second : Schema} (pairs : Pairs (· = ·) first second) : first = second := by
  cases pairs with
  | choice => rfl
  | product title description fields =>
    have same : List.Forall₂ (· = ·) _ _ := fields.imp fun one other pair => by
      obtain ⟨name, schema, required⟩ := one
      obtain ⟨nameToo, schemaToo, requiredToo⟩ := other
      obtain ⟨rfl, rfl, _, _, title, description, rfl, here, there⟩ := pair
      cases here.symm.trans there
      rfl
    rw [List.forall₂_eq_eq_eq] at same
    rw [same]
  | map values sample =>
    cases values with
    | none => rfl
    | some same => rw [same]
  | union alternatives =>
    rw [List.forall₂_eq_eq_eq] at alternatives
    rw [alternatives]

end Schemata
