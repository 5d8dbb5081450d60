import Schemata.Proofs.BodyPairs
import Schemata.Proofs.SchemaMeaning
import Schemata.Proofs.SoundReferences
import Schemata.Proofs.WalkSimulation

/-! Schemas that mean the same. The schemas that the compiler builds admit the same documents as soon as
the schemas inside them do, and documentation makes no difference to a lenient reader. What a type admits
beside null is seen from its keywords. -/

namespace Schemata

open Value (asks asksPlainly meets verdicts membersAdmit declares)

/-- Documentation asks nothing of a document. -/
def Reader.IsLenient (reader : Reader) : Prop :=
  ∀ name ∈ ["title", "description", "example"], ∀ value document, reader.asks name value document = true

def Part.Agrees (reader : Reader) (refers other : Value → Value → Bool) (name : String) (part twin : Part Schema) : Prop :=
  ∀ declared document, asks reader refers declared (Keyword.of name) name (Schema.partValue part) document =
    asks reader other declared (Keyword.of name) name (Schema.partValue twin) document

namespace Schema

/-- Two schemas admit the same documents, each with references of its own. If one of them is no object they
are the same. -/
structure Agrees (reader : Reader) (refers other : Value → Value → Bool) (schema twin : Schema) : Prop where
  admits : ∀ document, schema.toValue.admits reader refers document = twin.toValue.admits reader other document
  level : schema.Level twin

variable {reader : Reader} {refers other : Value → Value → Bool}

theorem asks_plain (declared : String → Bool) (name : String) (value document : Value) :
    asks reader refers declared .plain name value document = asksPlainly reader refers name value document := by
  cases value <;> rfl

theorem asks_documentation (lenient : reader.IsLenient) {name : String} (known : name ∈ ["title", "description", "example"])
    (declared : String → Bool) (value document : Value) :
    asks reader refers declared (Keyword.of name) name value document = true := by
  have free := lenient name known value document
  simp only [List.mem_cons, List.not_mem_nil, or_false] at known
  rcases known with rfl | rfl | rfl
  all_goals
    rw [show Keyword.of _ = .plain from rfl, asks_plain]
    cases value <;> exact free

theorem meets_of_each {declared : String → Bool} {parts : Parts} {document : Value}
    (each : ∀ entry ∈ parts, asks reader refers declared (Keyword.of entry.1) entry.1 (partValue entry.2) document = true) :
    meets reader refers declared (entries parts) document = true := by
  induction parts with
  | nil => rfl
  | cons head rest ih =>
    obtain ⟨name, part⟩ := head
    rw [entries, meets, each _ List.mem_cons_self, ih fun entry member => each entry (List.mem_cons_of_mem _ member)]
    rfl

theorem meets_congr {parts others : Parts} (all : List.Forall₂ (Record.Pairs (Part.Agrees reader refers other)) parts others)
    (declared : String → Bool) (document : Value) :
    meets reader refers declared (entries parts) document = meets reader other declared (entries others) document := by
  induction all with
  | nil => rfl
  | @cons head twin _ _ pair _ ih =>
    obtain ⟨name, part⟩ := head
    obtain ⟨label, partToo⟩ := twin
    obtain ⟨rfl, own⟩ : name = label ∧ Part.Agrees reader refers other name part partToo := pair
    rw [entries, entries, meets, meets, own declared document, ih]

theorem agrees_keywords {parts others : Parts} (declared : declares reader (entries parts) = declares reader (entries others))
    (all : List.Forall₂ (Record.Pairs (Part.Agrees reader refers other)) parts others) :
    Agrees reader refers other (keywords parts) (keywords others) := by
  refine ⟨fun document => ?_, .inr ⟨trivial, trivial⟩⟩
  rw [toValue, toValue, Value.admits, Value.admits, declared]
  exact meets_congr all _ document

/-- A keyword that holds a schema asks the same if the schemas agree. -/
theorem Agrees.asks {schema twin : Schema} (agrees : Agrees reader refers other schema twin) {name : String}
    (known : Keyword.of name = .items ∨ Keyword.of name = .additional) (declared : String → Bool) (document : Value) :
    asks reader refers declared (Keyword.of name) name schema.toValue document =
      asks reader other declared (Keyword.of name) name twin.toValue document := by
  have apart : name ≠ "$ref" := by
    rintro rfl
    simp [Keyword.of] at known
  generalize Keyword.of name = keyword at known ⊢
  rcases agrees.level with rfl | ⟨object, objectToo⟩
  · have same := agrees.admits
    cases value : schema.toValue with
    | map entries =>
      have meets : meets reader refers (declares reader entries) entries = meets reader other (declares reader entries) entries := by
        funext document
        simpa only [value, Value.admits] using same document
      rcases known with rfl | rfl <;> simp only [Value.asks, meets]
    | bool => rcases known with rfl | rfl <;> simp only [Value.asks]
    | _ =>
      rcases known with rfl | rfl
      · simp only [Value.asks]
        exact Value.asksPlainly_elsewhere apart _ _
      · simp only [Value.asks]
  · cases schema with
    | data => exact object.elim
    | keywords parts =>
      cases twin with
      | data => exact objectToo.elim
      | keywords others =>
        have meets : meets reader refers (declares reader (entries parts)) (entries parts) =
            meets reader other (declares reader (entries others)) (entries others) := by
          funext document
          simpa only [toValue, Value.admits] using agrees.admits document
        rcases known with rfl | rfl <;> simp only [toValue, Value.asks, meets]

theorem verdicts_values {first second : List Schema} (all : List.Forall₂ (Agrees reader refers other) first second)
    (document : Value) : verdicts reader refers (values first) document = verdicts reader other (values second) document := by
  induction all with
  | nil => rfl
  | cons agrees _ ih => rw [values, values, verdicts, verdicts, agrees.admits, ih]

theorem membersAdmit_memberEntries {first second : List (String × Schema)}
    (all : List.Forall₂ (Record.Pairs fun _ => Agrees reader refers other) first second) (fields : Object) :
    membersAdmit reader refers (memberEntries first) fields = membersAdmit reader other (memberEntries second) fields := by
  induction all with
  | nil => rfl
  | @cons head twin _ _ pair _ ih =>
    obtain ⟨name, schema⟩ := head
    obtain ⟨label, schemaToo⟩ := twin
    obtain ⟨rfl, agrees⟩ : name = label ∧ Agrees reader refers other schema schemaToo := pair
    rw [memberEntries, memberEntries, membersAdmit, membersAdmit, ih]
    cases Value.find? fields name with
    | none => rfl
    | some held => simp only [agrees.admits]

theorem isSome_find?_memberEntries {related : String → Schema → Schema → Prop} {first second : List (String × Schema)}
    (all : List.Forall₂ (Record.Pairs related) first second) (name : String) :
    (Value.find? (memberEntries first) name).isSome = (Value.find? (memberEntries second) name).isSome := by
  induction all with
  | nil => rfl
  | @cons head twin _ _ pair _ ih =>
    obtain ⟨key, schema⟩ := head
    obtain ⟨label, schemaToo⟩ := twin
    obtain ⟨rfl, -⟩ : key = label ∧ _ := pair
    rw [memberEntries, memberEntries, Value.find?, Value.find?]
    split
    · rfl
    · exact ih

theorem meets_set {declared : String → Bool} {name : String} {part : Part Schema}
    (free : ∀ value document, asks reader refers declared (Keyword.of name) name value document = true) (parts : Parts)
    (document : Value) : meets reader refers declared (entries (Record.set parts name part)) document =
      meets reader refers declared (entries parts) document := by
  induction parts with
  | nil => simp [Record.set, entries, meets, free]
  | cons head rest ih =>
    obtain ⟨key, held⟩ := head
    simp only [Record.set]
    split
    next same =>
      subst same
      rw [entries, entries, meets, meets, free, free]
    next => rw [entries, entries, meets, meets, ih]

/-- Only two keywords declare names. -/
theorem declares_set {name : String} (apart : name ∉ ["properties", "patternProperties"]) (parts : Parts)
    (part : Part Schema) : declares reader (entries (Record.set parts name part)) = declares reader (entries parts) := by
  have same (key : String) (other : key ∈ ["properties", "patternProperties"]) :
      Value.find? (entries (Record.set parts name part)) key = Value.find? (entries parts) key := by
    have different : key ≠ name := fun equal => apart (equal ▸ other)
    rw [find?_entries, find?_entries, Record.find?_set, if_neg different]
  funext label
  rw [declares, declares, same _ (by simp), same _ (by simp)]

theorem admits_annotate (lenient : reader.IsLenient) {name : String} (known : name ∈ ["title", "description", "example"])
    {value : Option Value} {schema annotated : Schema} (done : schema.annotate name value = .ok annotated) (document : Value) :
    annotated.toValue.admits reader refers document = schema.toValue.admits reader refers document := by
  cases value with
  | none =>
    cases done
    rfl
  | some value =>
    cases schema with
    | data => cases done
    | keywords parts =>
      cases done
      have apart : name ∉ ["properties", "patternProperties"] := by
        simp only [List.mem_cons, List.not_mem_nil, or_false] at known
        rcases known with rfl | rfl | rfl <;> simp
      rw [toValue, toValue, Value.admits, Value.admits, declares_set apart]
      exact meets_set (asks_documentation lenient known _) parts document

theorem admits_described (lenient : reader.IsLenient) {title description : Option Value} {schema described : Schema}
    (done : schema.described title description = .ok described) (document : Value) :
    described.toValue.admits reader refers document = schema.toValue.admits reader refers document := by
  obtain ⟨middle, titled, described⟩ := Schema.described_eq_ok.mp done
  rw [admits_annotate lenient (by simp) described, admits_annotate lenient (by simp) titled]

theorem Agrees.described {schema twin one two : Schema} {title description : Option Value} (lenient : reader.IsLenient)
    (agrees : Agrees reader refers other schema twin) (here : schema.described title description = .ok one)
    (there : twin.described title description = .ok two) : Agrees reader refers other one two := by
  refine ⟨fun document => ?_, ?_⟩
  · rw [admits_described lenient here, admits_described lenient there, agrees.admits]
  · rcases agrees.level with rfl | ⟨object, objectToo⟩
    · exact .inl (Except.ok.inj (here.symm.trans there))
    · obtain ⟨described, again, own⟩ := object.described title description
      obtain ⟨describedToo, againToo, ownToo⟩ := objectToo.described title description
      cases here.symm.trans again
      cases there.symm.trans againToo
      exact .inr ⟨own, ownToo⟩

/-- What refers to nothing agrees with itself. -/
theorem Sound.agrees {schema : Schema} {base : String} (sound : schema.Sound base fun _ => False) :
    Agrees reader refers other schema schema := by
  refine ⟨Value.admits_congr schema.toValue ?_, .inl rfl⟩
  intro object found target member
  obtain ⟨name, impossible, -⟩ := sound.refers ⟨object, found, member⟩
  exact impossible.elim

private theorem agrees_plain {name : String} (plain : Keyword.of name = .plain) (apart : name ≠ "$ref") (part : Part Schema) :
    Part.Agrees reader refers other name part part := by
  intro declared document
  rw [plain, asks_plain, asks_plain, Value.asksPlainly_elsewhere apart]

theorem Agrees.array {items others : Schema} (agrees : Agrees reader refers other items others) (kind : Value) :
    Agrees reader refers other (keywords [("type", .data kind), ("items", .schema items)])
      (keywords [("type", .data kind), ("items", .schema others)]) := by
  have inner : Part.Agrees reader refers other "items" (.schema items) (.schema others) := agrees.asks (.inl rfl)
  exact agrees_keywords rfl (.cons ⟨rfl, agrees_plain rfl (by simp) _⟩ (.cons ⟨rfl, inner⟩ .nil))

private theorem agrees_object : Part.Agrees reader refers other "type" (.data (.text "object")) (.data (.text "object")) :=
  agrees_plain rfl (by simp) _

theorem Agrees.product {first second : List (CompiledField String)} (lenient : reader.IsLenient)
    (title description : Option Value)
    (fields : List.Forall₂ (CompiledField.Pairs (Agrees reader refers other)) first second) :
    Agrees reader refers other (CompiledField.product first title description)
      (CompiledField.product second title description) := by
  have described : List.Forall₂ (Record.Pairs fun _ => Agrees reader refers other) _ _ :=
    CompiledField.Pairs.properties fields fun _ _ _ _ _ _ agrees here there => agrees.described lenient here there
  have members : Part.Agrees reader refers other "properties"
      (.members (Record.ofList (first.map fun field => (field.name, field.schema))))
      (.members (Record.ofList (second.map fun field => (field.name, field.schema)))) := by
    intro declared document
    have same := membersAdmit_memberEntries described
    cases document <;> simp only [partValue, Keyword.of, Value.asks, same]
  rw [CompiledField.product, CompiledField.product, CompiledField.Pairs.requiredNames_eq fields]
  obtain ⟨rest, body, passed⟩ :=
    CompiledField.exists_body_eq ((CompiledField.requiredNames second).map .text) title description
  rw [body, body]
  refine agrees_keywords ?_ (.cons ⟨rfl, agrees_object⟩ (.cons ⟨rfl, members⟩ (List.forall₂_same.mpr ?_)))
  · funext name
    exact congrArg (· || _) (isSome_find?_memberEntries described name)
  · rintro ⟨name, part⟩ inside
    rcases passed name part inside with ⟨rfl, -⟩ | rfl | rfl <;> exact ⟨rfl, agrees_plain rfl (by simp) part⟩

theorem Agrees.mapping {one two : Option Schema} (values : Option.Rel (Agrees reader refers other) one two)
    (sample : Option Value) : Agrees reader refers other (.mapping one sample) (.mapping two sample) := by
  have sampled (value : Value) : Part.Agrees reader refers other "example" (.data value) (.data value) :=
    agrees_plain rfl (by simp) _
  cases values with
  | none =>
    cases sample with
    | none => exact agrees_keywords rfl (.cons ⟨rfl, agrees_object⟩ .nil)
    | some sample => exact agrees_keywords rfl (.cons ⟨rfl, agrees_object⟩ (.cons ⟨rfl, sampled _⟩ .nil))
  | @some schema twin agrees =>
    have inner : Part.Agrees reader refers other "additionalProperties" (.schema schema) (.schema twin) :=
      agrees.asks (.inr rfl)
    cases sample with
    | none => exact agrees_keywords rfl (.cons ⟨rfl, agrees_object⟩ (.cons ⟨rfl, inner⟩ .nil))
    | some sample =>
      exact agrees_keywords rfl (.cons ⟨rfl, agrees_object⟩ (.cons ⟨rfl, inner⟩ (.cons ⟨rfl, sampled _⟩ .nil)))

theorem Agrees.oneOf {one two : List Schema} (alternatives : List.Forall₂ (Agrees reader refers other) one two) :
    Agrees reader refers other (.oneOf one) (.oneOf two) := by
  have inner : Part.Agrees reader refers other "oneOf" (.schemas one) (.schemas two) := by
    intro declared document
    have same := verdicts_values alternatives document
    simp only [partValue, Keyword.of, Value.asks, same]
  exact agrees_keywords rfl (.cons ⟨rfl, inner⟩ .nil)

/-- Bodies agree if their references do. -/
theorem Pairs.agrees (lenient : reader.IsLenient) {first second : Schema}
    (pairs : Pairs (Agrees reader refers other) first second) : Agrees reader refers other first second := by
  cases pairs with
  | choice values =>
    have sound : (Schema.choice (.texts values)).Sound "" fun _ => False := sound_choice
    exact sound.agrees
  | product title description fields => exact .product lenient title description fields
  | map values sample => exact .mapping values sample
  | union alternatives => exact .oneOf alternatives

end Schema

end Schemata
