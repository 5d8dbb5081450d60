import Schemata.Proofs.CompileErrors
import Schemata.Proofs.SoundReferences
import Schemata.Proofs.Unfolding

/-! What unfolding makes of the schemas that the compiler builds. Keywords of its own that are no wrapper
are gone through one by one, fragments stay as they are, and a reference to the table becomes what it stands
for, with the same title and description. -/

namespace Schemata

variable (resolve : Value → Option Value) (flagged : Bool)

def Part.UnfoldsTo (name : String) (part other : Part Schema) : Prop :=
  match Position.of? name with
  | some position => (Schema.partValue part).unfolded? resolve flagged position = some (Schema.partValue other)
  | none => part = other

namespace Schema

/-- One schema is another once its references have been unfolded, whatever documents it. -/
def UnfoldsTo (schema other : Schema) : Prop :=
  ∀ title description one two, schema.described title description = .ok one →
    other.described title description = .ok two → one.toValue.unfolded? resolve flagged .schema = some two.toValue

/-- Keywords that a reader takes neither for a reference nor for the wrapper around one. -/
structure IsPlain (parts : Parts) : Prop where
  reference : Record.find? parts "$ref" = none
  wrapper : Record.find? parts "allOf" = none
  alternatives : flagged = false → ∀ part target, Record.find? parts "oneOf" = some part →
    partValue part ≠ .list [.map [(.text "$ref", target)], null.toValue]

inductive Unfolds : Schema → Schema → Prop where
  | keywords {parts others : Parts} (plain : IsPlain flagged parts)
      (all : List.Forall₂ (Record.Pairs (Part.UnfoldsTo resolve flagged)) parts others) :
      Unfolds (.keywords parts) (.keywords others)

variable {resolve flagged}

theorem unfoldItems?_values {first second : List Schema} (all : List.Forall₂ (UnfoldsTo resolve flagged) first second) :
    Value.unfoldItems? resolve flagged (values first) = some (values second) := by
  induction all with
  | nil => rfl
  | cons one rest ih =>
    rw [values, Value.unfoldItems?, one none none _ _ rfl rfl, ih]
    rfl

theorem unfoldMembers?_memberEntries {first second : List (String × Schema)}
    (all : List.Forall₂ (Record.Pairs fun _ schema other =>
      schema.toValue.unfolded? resolve flagged .schema = some other.toValue) first second) :
    Value.unfoldMembers? resolve flagged (memberEntries first) = some (memberEntries second) := by
  induction all with
  | nil => rfl
  | @cons head other _ _ pair rest ih =>
    obtain ⟨name, schema⟩ := head
    obtain ⟨label, twin⟩ := other
    obtain ⟨rfl, own⟩ : name = label ∧ _ := pair
    rw [memberEntries, Value.unfoldMembers?, own, ih]
    rfl

theorem unfoldKeywords?_entries {parts others : Parts}
    (all : List.Forall₂ (Record.Pairs (Part.UnfoldsTo resolve flagged)) parts others) :
    Value.unfoldKeywords? resolve flagged (entries parts) = some (entries others) := by
  induction all with
  | nil => rfl
  | @cons head other _ _ pair rest ih =>
    obtain ⟨name, part⟩ := head
    obtain ⟨label, twin⟩ := other
    obtain ⟨rfl, own⟩ : name = label ∧ Part.UnfoldsTo resolve flagged name part twin := pair
    rw [entries, Value.unfoldKeywords?]
    unfold Part.UnfoldsTo at own
    split
    next position known =>
      rw [known] at own
      rw [own, ih]
      rfl
    next unknown =>
      rw [unknown] at own
      rw [own, ih]
      rfl

theorem IsPlain.referral? {parts : Parts} (plain : IsPlain flagged parts) :
    Value.referral? flagged (entries parts) = none := by
  have reference : Value.find? (entries parts) "$ref" = none := by rw [find?_entries, plain.reference]; rfl
  have wrapper : Value.find? (entries parts) "allOf" = none := by rw [find?_entries, plain.wrapper]; rfl
  unfold Value.referral?
  rw [reference]
  cases flagged with
  | true => simp only [if_true, wrapper]
  | false =>
    simp only [Bool.false_eq_true, if_false]
    split
    next target found =>
      rw [find?_entries] at found
      obtain ⟨part, held, same⟩ := Option.map_eq_some_iff.mp found
      exact absurd same (plain.alternatives rfl part target held)
    next => rfl

theorem Unfolds.unfolded? {schema other : Schema} (unfolds : Unfolds resolve flagged schema other) :
    schema.toValue.unfolded? resolve flagged .schema = some other.toValue := by
  obtain ⟨plain, all⟩ := unfolds
  rw [toValue, Value.unfolded?, plain.referral?, unfoldKeywords?_entries all]
  rfl

private theorem Unfolds.annotate {schema other one two : Schema} (unfolds : Unfolds resolve flagged schema other)
    {name : String} (documents : name = "title" ∨ name = "description") {value : Option Value}
    (here : schema.annotate name value = .ok one) (there : other.annotate name value = .ok two) :
    Unfolds resolve flagged one two := by
  cases value with
  | none =>
    cases here
    cases there
    exact unfolds
  | some value =>
    obtain ⟨plain, all⟩ := unfolds
    cases here
    cases there
    have apart (other : String) (known : other ∉ ["title", "description"]) : other ≠ name := by
      rintro rfl
      exact known (by simpa using documents)
    refine ⟨⟨?_, ?_, fun unflagged part target found => ?_⟩, Record.forall₂_set all ?_⟩
    · rw [Record.find?_set, if_neg (apart _ (by decide)), plain.reference]
    · rw [Record.find?_set, if_neg (apart _ (by decide)), plain.wrapper]
    · rw [Record.find?_set, if_neg (apart _ (by decide))] at found
      exact plain.alternatives unflagged part target found
    · rcases documents with rfl | rfl <;> rfl

theorem Unfolds.unfoldsTo {schema other : Schema} (unfolds : Unfolds resolve flagged schema other) :
    UnfoldsTo resolve flagged schema other := by
  intro title description one two here there
  obtain ⟨middle, titled, described⟩ := described_eq_ok.mp here
  obtain ⟨middleToo, titledToo, describedToo⟩ := described_eq_ok.mp there
  exact ((unfolds.annotate (.inl rfl) titled titledToo).annotate (.inr rfl) described describedToo).unfolded?

/-- What refers to nothing unfolds to itself. -/
theorem Sound.unfoldsTo {schema : Schema} {base : String} (sound : schema.Sound base fun _ => False) :
    UnfoldsTo resolve flagged schema schema := by
  intro title description one two here there
  cases here.symm.trans there
  apply Value.unfolded?_of_refersNowhere
  intro object found target member
  obtain ⟨name, impossible, -⟩ := (sound.described here).refers ⟨object, found, member⟩
  exact impossible

/-- A reference to the table is read as one, and so is one that admits null, whatever documents them. -/
private theorem referral?_reference {setting : Setting} {nullable : Bool} {name : String} {schema described : Schema}
    {title description : Option Value}
    (widened : setting.widened nullable (reference setting.dialect.base name) = .ok schema)
    (done : schema.described title description = .ok described) : ∃ entries, described.toValue = .map entries ∧
      Value.referral? setting.dialect.flagged entries =
        some (.text (setting.dialect.base ++ name), nullable, remarks title description) := by
  unfold Setting.widened at widened
  cases nullable with
  | false =>
    cases widened
    cases title <;> cases description <;> cases done <;> exact ⟨_, rfl, rfl⟩
  | true =>
    cases flagged : setting.dialect.flagged with
    | false | true =>
      rw [flagged] at widened
      cases widened
      cases title <;> cases description <;> cases done <;> exact ⟨_, rfl, rfl⟩

/-- A reference to a body unfolds to the body. -/
theorem unfoldsTo_reference {setting : Setting} {nullable : Bool} {name : String} {schema other : Schema} {parts : Parts}
    (widened : setting.widened nullable (reference setting.dialect.base name) = .ok schema)
    (typed : ∀ part, Record.find? parts "type" = some part → ∃ value, part = .data value)
    (widenedToo : setting.widened nullable (keywords parts) = .ok other)
    (resolved : resolve (.text (setting.dialect.base ++ name)) = some (keywords parts).toValue) :
    UnfoldsTo resolve setting.dialect.flagged schema other := by
  intro title description one two here there
  obtain ⟨entries, written, referral⟩ := referral?_reference widened here
  obtain ⟨others, rfl, body⟩ : ∃ others, other = keywords others ∧
      (if nullable then (keywords parts).toValue.nullable? setting.dialect.flagged else some (keywords parts).toValue) =
        some (keywords others).toValue := by
    cases nullable with
    | false =>
      cases widenedToo
      exact ⟨_, rfl, rfl⟩
    | true =>
      rw [Setting.widened, if_pos rfl] at widenedToo
      obtain ⟨others, rfl⟩ := keywords_of_nullable? widenedToo
      refine ⟨others, rfl, ?_⟩
      rw [if_pos rfl, nullable?_toValue typed, widenedToo]
      rfl
  rw [written, Value.unfolded?, referral]
  simp only [resolved, Option.bind_some, body, Option.map_some, toValue_described there]

private theorem find?_eq_none {parts : Parts} {name : String} (absent : name ∉ Record.names parts) :
    Record.find? parts name = none := by
  have has := Record.has_eq_false_iff.mpr absent
  rwa [Record.has, Option.isSome_eq_false_iff, Option.isNone_iff_eq_none] at has

private theorem IsPlain.of_names {parts : Parts} (apart : ∀ name ∈ ["$ref", "allOf", "oneOf"], name ∉ Record.names parts) :
    IsPlain flagged parts where
  reference := find?_eq_none (apart _ (by simp))
  wrapper := find?_eq_none (apart _ (by simp))
  alternatives _ part target found := by
    rw [find?_eq_none (apart _ (by simp))] at found
    cases found

theorem unfoldsTo_array {setting : Setting} {nullable : Bool} {items others schema other : Schema}
    (inner : UnfoldsTo resolve setting.dialect.flagged items others)
    (widened : setting.widened nullable (array items) = .ok schema)
    (widenedToo : setting.widened nullable (array others) = .ok other) :
    UnfoldsTo resolve setting.dialect.flagged schema other := by
  apply Unfolds.unfoldsTo
  have own : Part.UnfoldsTo resolve setting.dialect.flagged "items" (.schema items) (.schema others) :=
    inner none none _ _ rfl rfl
  have plain (kind : Value) (rest : Parts) (apart : ∀ name ∈ Record.names rest, name = "nullable") :
      IsPlain setting.dialect.flagged (("type", .data kind) :: ("items", .schema items) :: rest) := by
    apply IsPlain.of_names
    intro name member found
    have known : name = "type" ∨ name = "items" ∨ name ∈ Record.names rest := by simpa [Record.names] using found
    rcases known with rfl | rfl | later
    · simp at member
    · simp at member
    · cases apart name later
      simp at member
  have none (name : String) (member : name ∈ Record.names ([] : Parts)) : name = "nullable" :=
    absurd member List.not_mem_nil
  unfold Setting.widened at widened widenedToo
  cases nullable with
  | false =>
    cases widened
    cases widenedToo
    exact ⟨plain _ [] none, .cons ⟨rfl, rfl⟩ (.cons ⟨rfl, own⟩ .nil)⟩
  | true =>
    cases flagged : setting.dialect.flagged with
    | false =>
      rw [flagged] at widened widenedToo own plain
      cases widened
      cases widenedToo
      exact ⟨plain _ [] none, .cons ⟨rfl, rfl⟩ (.cons ⟨rfl, own⟩ .nil)⟩
    | true =>
      rw [flagged] at widened widenedToo own plain
      cases widened
      cases widenedToo
      refine ⟨plain _ [("nullable", _)] ?_, .cons ⟨rfl, rfl⟩ (.cons ⟨rfl, own⟩ (.cons ⟨rfl, rfl⟩ .nil))⟩
      simp [Record.names]

section Bodies

variable {related : Schema → Schema → Prop}
  (unfolds : ∀ schema other, related schema other → UnfoldsTo resolve flagged schema other)

include unfolds

private theorem unfolds_product {one other : List (CompiledField String)} (title description : Option Value)
    (fields : List.Forall₂ (CompiledField.Pairs related) one other) : Unfolds resolve flagged
      (CompiledField.product one title description) (CompiledField.product other title description) := by
  have described := CompiledField.Pairs.properties fields fun schema other title description one two own here there =>
    (unfolds schema other own title description one two here there :
      one.toValue.unfolded? resolve flagged .schema = some two.toValue)
  have members : Part.UnfoldsTo resolve flagged "properties"
      (.members (Record.ofList (one.map fun field => (field.name, field.schema))))
      (.members (Record.ofList (other.map fun field => (field.name, field.schema)))) := by
    have all := unfoldMembers?_memberEntries described
    simp only [Part.UnfoldsTo, Position.of?, partValue, Value.unfolded?, all]
    rfl
  rw [CompiledField.product, CompiledField.product, CompiledField.Pairs.requiredNames_eq fields]
  obtain ⟨rest, body, passed⟩ := CompiledField.exists_body_eq ((CompiledField.requiredNames other).map .text) title description
  rw [body, body]
  refine ⟨.of_names fun name member found => ?_, .cons ⟨rfl, rfl⟩ (.cons ⟨rfl, members⟩ (List.forall₂_same.mpr ?_))⟩
  · have known : name = "type" ∨ name = "properties" ∨ name ∈ Record.names rest := by
      simpa [Record.names] using found
    rcases known with rfl | rfl | later
    · simp at member
    · simp at member
    · obtain ⟨part, inside⟩ := Record.exists_of_mem_names later
      have listed := passed name part inside
      simp only [List.mem_cons, List.not_mem_nil, or_false] at member
      rcases member with rfl | rfl | rfl <;> simp at listed
  · rintro ⟨name, part⟩ inside
    rcases passed name part inside with ⟨rfl, -⟩ | rfl | rfl <;> exact ⟨rfl, rfl⟩

private theorem unfolds_mapping {values others : Option Schema} (pairs : Option.Rel related values others)
    (sample : Option Value) : Unfolds resolve flagged (.mapping values sample) (.mapping others sample) := by
  cases pairs with
  | none =>
    cases sample with
    | none => exact ⟨.of_names (by simp [Record.names]), .cons ⟨rfl, rfl⟩ .nil⟩
    | some sample => exact ⟨.of_names (by simp [Record.names]), .cons ⟨rfl, rfl⟩ (.cons ⟨rfl, rfl⟩ .nil)⟩
  | @some schema other own =>
    have values : Part.UnfoldsTo resolve flagged "additionalProperties" (.schema schema) (.schema other) :=
      unfolds schema other own none none _ _ rfl rfl
    cases sample with
    | none => exact ⟨.of_names (by simp [Record.names]), .cons ⟨rfl, rfl⟩ (.cons ⟨rfl, values⟩ .nil)⟩
    | some sample =>
      exact ⟨.of_names (by simp [Record.names]), .cons ⟨rfl, rfl⟩ (.cons ⟨rfl, values⟩ (.cons ⟨rfl, rfl⟩ .nil))⟩

private theorem unfolds_oneOf {one other : List Schema} (alternatives : List.Forall₂ related one other)
    (apart : ∀ schema other, related schema other → flagged = false → schema.toValue ≠ null.toValue) :
    Unfolds resolve flagged (.oneOf one) (.oneOf other) := by
  have items : Part.UnfoldsTo resolve flagged "oneOf" (.schemas one) (.schemas other) := by
    have all := unfoldItems?_values (alternatives.imp fun _ _ own => unfolds _ _ own)
    simp only [Part.UnfoldsTo, Position.of?, partValue, Value.unfolded?, all]
    rfl
  refine ⟨⟨rfl, rfl, fun unflagged part target found => ?_⟩, .cons ⟨rfl, items⟩ .nil⟩
  cases found
  intro wrapper
  -- the second alternative would be null
  cases alternatives with
  | nil => simp [partValue, values] at wrapper
  | cons first rest =>
    cases rest with
    | nil => simp [partValue, values] at wrapper
    | cons second rest =>
      simp only [partValue, values, Value.list.injEq, List.cons.injEq] at wrapper
      exact apart _ _ second unflagged wrapper.2.1

end Bodies

/-- What references of a body unfold to, the body unfolds to. Only an alternative that is null itself could
make a union look like a wrapper. -/
theorem Pairs.unfolds {first second : Schema}
    (pairs : Pairs (fun schema other => UnfoldsTo resolve flagged schema other ∧
      (flagged = false → schema.toValue ≠ null.toValue)) first second) : Unfolds resolve flagged first second := by
  cases pairs with
  | choice values =>
    exact ⟨.of_names (by simp [Record.names]), .cons ⟨rfl, rfl⟩ (.cons ⟨rfl, rfl⟩ .nil)⟩
  | product title description fields => exact unfolds_product (fun _ _ => And.left) title description fields
  | map values sample => exact unfolds_mapping (fun _ _ => And.left) values sample
  | union alternatives => exact unfolds_oneOf (fun _ _ => And.left) alternatives fun _ _ => And.right

theorem Pairs.typed {related : Schema → Schema → Prop} {first second : Schema} (pairs : Pairs related first second) :
    ∃ parts, second = keywords parts ∧
      ∀ part, Record.find? parts "type" = some part → ∃ value, part = .data value := by
  cases pairs with
  | choice | product | map =>
    refine ⟨_, rfl, fun part found => ?_⟩
    cases found
    exact ⟨_, rfl⟩
  | union =>
    refine ⟨_, rfl, fun part found => ?_⟩
    cases found

end Schema

end Schemata
