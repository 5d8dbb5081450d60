import Schemata.Proofs.CheckedDefinitions
import Schemata.Proofs.DefinitionGraph
import Schemata.Proofs.KeywordLaws
import Schemata.Proofs.MaintainedProperties

/-! Schemas that are well formed stay so, whatever is built of them: a type is a text or some distinct texts, and
alternatives are some. There is one exception. A type that is the text for null is made a list with null in it
twice when null is admitted; lists are looked through for null before it is added, texts are not. -/

namespace Schemata

/-- A type is written as a text, or as a list of distinct texts. -/
def Value.IsTyping (type : Value) : Prop :=
  (∃ name, type = .text name) ∨ ∃ names : List String, names ≠ [] ∧ names.Nodup ∧ type.items? = some (names.map .text)

structure WellFormed (key : String) (held : Value) : Prop where
  typed : key = "type" → held.IsTyping
  filled : key ∈ ["enum", "oneOf", "allOf"] → ∃ first rest, held.items? = some (first :: rest)

/-- A keyword is well formed, or it is a type with null in it twice, where that is possible. -/
def Tolerable (doubles : Prop) (key : String) (held : Value) : Prop :=
  WellFormed key held ∨ doubles ∧ key = "type" ∧ held = .list [.text "null", .text "null"]

theorem wellFormed_of_notMem {key : String} {held : Value} (other : key ∉ ["type", "enum", "oneOf", "allOf"]) :
    WellFormed key held := by
  rw [List.mem_cons, not_or] at other
  exact ⟨fun type => absurd type other.1, fun listed => absurd listed other.2⟩

theorem wellFormed_type (name : String) : WellFormed "type" (.text name) := ⟨fun _ => .inl ⟨name, rfl⟩, by simp⟩

theorem tolerable_writes (dialect : Dialect) (seating : Seating) (doubles : Prop) :
    dialect.Writes seating (Tolerable doubles) where
  type name := .inl (wellFormed_type name)
  plain {key} _ plain := by
    refine .inl (wellFormed_of_notMem fun own => ?_)
    simp only [List.mem_cons, List.not_mem_nil, or_false] at own plain
    rcases own with rfl | rfl | rfl | rfl <;> simp at plain
  listed first rest listed := by
    refine .inl ⟨fun type => ?_, fun _ => ⟨first, rest, rfl⟩⟩
    subst type
    simp at listed
  reference _ := .inl (wellFormed_of_notMem (by simp))
  flag _ := .inl (wellFormed_of_notMem (by simp))

theorem typeWithNull_ne_text (type : Value) (name : String) : Schema.typeWithNull type ≠ .text name := by
  unfold Schema.typeWithNull
  split
  next types listed =>
    split
    · intro same
      subst same
      cases listed
    · nofun
  next => nofun

/-- Null is beside a type once, unless it was the type. -/
theorem tolerable_typeWithNull {doubles : Prop} {type : Value} (own : Tolerable doubles "type" type)
    (null : type = .text "null" → doubles) : Tolerable doubles "type" (Schema.typeWithNull type) := by
  have listed {names : List String} (some : names ≠ []) (distinct : names.Nodup) :
      Tolerable doubles "type" (.list (names.map .text)) :=
    .inl ⟨fun _ => .inr ⟨names, some, distinct, rfl⟩, by simp⟩
  rcases own with formed | ⟨possible, -, rfl⟩
  · rcases formed.typed rfl with ⟨name, rfl⟩ | ⟨names, some, distinct, items⟩
    · show Tolerable doubles "type" (.list [.text name, .text "null"])
      by_cases same : name = "null"
      · subst same
        exact .inr ⟨null rfl, rfl, rfl⟩
      · have both : [name, "null"].Nodup := by simpa using same
        exact listed (by simp) both
    · rw [Schema.typeWithNull, items]
      dsimp only
      split
      next => exact .inl formed
      next absent =>
        have outside : "null" ∉ names := by simpa [Value.isText] using absent
        have longer : names.map Value.text ++ [.text "null"] = (names ++ ["null"]).map .text := by simp
        rw [longer]
        refine listed (by simp) (distinct.append (List.nodup_singleton _) fun other one same => ?_)
        cases List.mem_singleton.mp same
        exact outside one
  · exact .inr ⟨possible, rfl, rfl⟩

/-- A schema for null alone, or one that at least says that it is. -/
def Schema.IsNullTyped : Schema → Prop
  | .keywords parts => type? parts = some (.text "null")
  | .data _ => False

/-- A schema that is well formed wherever it is read, but for types with null in them twice in a dialect without a
flag. Only a fragment that is of type null leads to those, so it is kept in mind whether one was seen. -/
structure Schema.IsTidy (seating : Seating) (seen : Prop) (dialect : Dialect) (schema : Schema) : Prop where
  obeys : schema.Obeys seating (Tolerable (dialect.flagged = false ∧ seen))
  typed : schema.IsNullTyped → seen

section Tidy

variable {seating : Seating} {seen : Prop} {dialect : Dialect} {schema changed : Schema} {key : String}

private theorem tidy_of_type {parts : Schema.Parts} {name : String}
    (obeys : (Schema.keywords parts).Obeys seating (Tolerable (dialect.flagged = false ∧ seen)))
    (typed : Record.find? parts "type" = some (.data (.text name))) (other : name ≠ "null") :
    (Schema.keywords parts).IsTidy seating seen dialect := by
  refine ⟨obeys, fun null => absurd null ?_⟩
  simpa [Schema.IsNullTyped, Schema.type?, typed] using other

private theorem type?_set {parts : Schema.Parts} (other : key ≠ "type") (part : Part Schema) :
    Schema.type? (Record.set parts key part) = Schema.type? parts := by
  unfold Schema.type?
  rw [Record.find?_set, if_neg (Ne.symm other)]

namespace Schema.IsTidy

theorem annotated {value : Option Value} (plain : key ∈ ["title", "description", "example"])
    (tidy : schema.IsTidy seating seen dialect) (done : schema.annotate key value = .ok changed) :
    changed.IsTidy seating seen dialect := by
  refine ⟨(tolerable_writes dialect seating _).obeys_annotated plain tidy.obeys done, ?_⟩
  cases value with
  | none => cases done; exact tidy.typed
  | some value =>
    cases schema with
    | data => cases done
    | keywords parts =>
      cases done
      have other : key ≠ "type" := by
        rintro rfl
        simp at plain
      intro null
      exact tidy.typed ((type?_set other _).symm.trans null)

theorem described {title description : Option Value} (tidy : schema.IsTidy seating seen dialect)
    (done : schema.described title description = .ok changed) : changed.IsTidy seating seen dialect := by
  obtain ⟨middle, titled, described⟩ := Schema.described_eq_ok.mp done
  exact (tidy.annotated (by simp) titled).annotated (by simp) described

theorem nullable (tidy : schema.IsTidy seating seen dialect) (done : schema.nullable? dialect.flagged = .ok changed) :
    changed.IsTidy seating seen dialect := by
  constructor
  · refine (tolerable_writes dialect seating _).obeys_nullable tidy.obeys (fun parts type same flagged typed => ?_) done
    subst same
    apply tolerable_typeWithNull (tidy.obeys.type typed)
    intro null
    exact ⟨flagged, tidy.typed (typed.trans (congrArg some null))⟩
  · intro null
    obtain ⟨parts, rfl, admission⟩ := Schema.admission done
    cases admission with
    | alternative | flagged => exact tidy.typed ((type?_set (by simp) _).symm.trans null)
    | wrapped | beside => cases null
    | @typed type =>
      -- a type with null beside it is a list
      have found := Schema.find?_of_type? null
      rw [Record.find?_set, if_pos rfl] at found
      exact absurd (Part.data.inj (Option.some.inj found)) (typeWithNull_ne_text type _)

end Schema.IsTidy

theorem tidy_choice {values : List Value} (some : values ≠ []) :
    (Schema.choice (.list values)).IsTidy seating seen dialect := by
  obtain ⟨first, rest, rfl⟩ := List.exists_cons_of_ne_nil some
  exact tidy_of_type ((tolerable_writes dialect seating _).obeys_choice first rest) rfl (by decide)

private theorem ne_nil_of_forall₂ {related : α → β → Prop} {items : List α} {values : List β}
    (all : List.Forall₂ related items values) (some : items ≠ []) : values ≠ [] := by
  rintro rfl
  cases all
  exact some rfl

/-- The body of a definition is tidy if its references are. -/
theorem Setting.ShowsBody.tidy {setting : Setting} {definition : Definition} {body : Schema}
    (model : definition.IsModel)
    (gives : ∀ name fragment, definition = .scalar name fragment →
      (Schema.ofRecord fragment).IsTidy seating seen setting.dialect)
    (shown : setting.ShowsBody (fun _ => Schema.IsTidy seating seen setting.dialect) definition body) :
    body.IsTidy seating seen setting.dialect := by
  have writes := tolerable_writes setting.dialect seating (setting.dialect.flagged = false ∧ seen)
  cases definition with
  | scalar name fragment => cases shown; exact gives name fragment rfl
  | input => exact shown.elim
  | sum name values => cases shown; exact tidy_choice (by simpa [Definition.IsModel] using model)
  | product name fields title description contentType =>
    obtain ⟨compiled, shown, rfl⟩ := shown
    have every : ∀ item ∈ Record.ofList (compiled.map fun field => (field.name, field.schema)),
        item.2.IsTidy seating seen setting.dialect := by
      refine CompiledField.forall_properties _ shown fun field compiled own => ?_
      refine own.keeps (fun _ _ => id) (fun values given => ?_) (fun _ _ => Schema.IsTidy.nullable)
        fun _ _ => Schema.IsTidy.described
      have some := (Option.filter_eq_some_iff.mp given).2
      exact tidy_choice (by simpa using some)
    refine tidy_of_type (writes.obeys_body _ _ _ ?_) rfl (by decide)
    exact List.forall_mem_map.mpr fun item member => (every item member).obeys
  | map name valueType sample =>
    obtain ⟨keywords, shown, annotated⟩ := shown
    refine Schema.IsTidy.annotated (by simp) ?_ annotated
    cases valueType with
    | none =>
      cases show keywords = .object from shown
      exact tidy_of_type writes.obeys_object rfl (by decide)
    | some type =>
      obtain ⟨values, ⟨spec, -, tidy⟩, done⟩ := shown
      have obeys := writes.obeys_map tidy.obeys done
      cases done
      exact tidy_of_type obeys rfl (by decide)
  | union name alternatives =>
    obtain ⟨schemas, shown, rfl⟩ := shown
    obtain ⟨first, rest, rfl⟩ := List.exists_cons_of_ne_nil (ne_nil_of_forall₂ shown model)
    refine ⟨writes.obeys_oneOf ?_, nofun⟩
    exact forall_of_forall₂ shown fun type schema ⟨spec, _, tidy⟩ => tidy.obeys

end Tidy

/-- A fragment that is well formed wherever it is read. It may be of type null if that is kept in mind. -/
structure Value.IsTidy (seating : Seating) (seen : Prop) (fragment : Value) : Prop where
  obeys : fragment.Obeys seating WellFormed .schema
  typed : (Schema.ofValue fragment).IsNullTyped → seen

theorem Value.IsTidy.schema {seating : Seating} {seen : Prop} {fragment : Value} (tidy : fragment.IsTidy seating seen)
    (dialect : Dialect) : (Schema.ofValue fragment).IsTidy seating seen dialect :=
  ⟨Schema.obeys_ofValue.mpr fun key held found => .inl (tidy.obeys key held found), tidy.typed⟩

def Upkeep.tidying (seating : Seating) (seen : Prop) : Upkeep where
  property dialect _ schema := schema.IsTidy seating seen dialect
  fits entry := ∃ definition, entry = .checked definition ∧ definition.IsModel ∧
    ∀ name fragment, definition = .scalar name fragment → (Value.record fragment).IsTidy seating seen
  takes fragment := fragment.IsTidy seating seen
  imp tidy _ := tidy
  reference {dialect _ _} _ := ⟨(tolerable_writes dialect seating _).obeys_reference _, nofun⟩
  array {dialect _ _} tidy :=
    tidy_of_type ((tolerable_writes dialect seating _).obeys_array tidy.obeys) rfl (by decide)
  nullable tidy done := tidy.nullable done
  primitive tidy := tidy.schema _
  scalar fits scalar read := by
    obtain ⟨definition, rfl, -, gives⟩ := fits
    obtain ⟨name, fragment, rfl, rfl⟩ := Definition.eq_scalar scalar read
    exact (gives name fragment rfl).schema _
  body fits shown := by
    obtain ⟨definition, rfl, model, gives⟩ := fits
    refine Setting.ShowsBody.tidy model (fun name fragment same => ?_) shown
    rw [← Schema.ofValue_record]
    exact (gives name fragment same).schema _

namespace Compiler

def Supplied (catalog : Catalog) (registry : Registry) (history : List Action) (fragment : Value) : Prop :=
  Learns registry history fragment ∨
    ∃ name record, Meets catalog history (.checked (.scalar name record)) ∧ fragment = .record record

/-- What a compiler writes in a whole session is well formed wherever it is read, if the fragments are that it was
given. The exception is a type with null in it twice, for which there must have been a fragment of type null and a
dialect without a flag. -/
theorem schemas_well_formed (seating : Seating) (catalog : Catalog) (registry : Registry) (mode : Mode)
    (base? : Option String) (history : List Action)
    (models : ∀ entry, Meets catalog history entry → ∃ definition, entry = .checked definition ∧ definition.IsModel)
    (wellFormed : ∀ fragment, Supplied catalog registry history fragment → fragment.Obeys seating WellFormed .schema) :
    let begun := new catalog registry mode base?
    let seen := ∃ fragment, Supplied catalog registry history fragment ∧ (Schema.ofValue fragment).IsNullTyped
    (∀ dialect name body, (name, body) ∈ (begun.after history).table dialect →
      body.Obeys seating (Tolerable (dialect.flagged = false ∧ seen))) ∧
    (∀ earlier action later, history = earlier ++ action :: later →
      ∀ given called compiled, action.call? = some (given, called) →
      (begun.after earlier).answer action = .call (.ok compiled) →
      ∀ schema ∈ compiled.schemas, schema.Obeys seating (Tolerable (called.isFlagged = false ∧ seen))) := by
  intro begun seen
  have tidy (fragment : Value) (supplied : Supplied catalog registry history fragment) : fragment.IsTidy seating seen :=
    ⟨wellFormed fragment supplied, fun null => ⟨fragment, supplied, null⟩⟩
  have types (entry : Entry) (met : Meets catalog history entry) : (Upkeep.tidying seating seen).fits entry := by
    obtain ⟨definition, rfl, model⟩ := models entry met
    refine ⟨definition, rfl, model, fun name fragment same => tidy _ (.inr ⟨name, fragment, ?_, rfl⟩)⟩
    exact same ▸ met
  have primitives (fragment : Value) (learns : Learns registry history fragment) :
      (Upkeep.tidying seating seen).takes fragment := tidy fragment (.inl learns)
  constructor
  · intro dialect name body member
    have upholds : (begun.after history).Upholds (.tidying seating seen) := after_upholds types primitives mode base?
    exact (upholds.tables dialect _ member).property.obeys
  · intro earlier action later same given called compiled call answered schema member
    rw [List.append_cons] at same
    subst same
    have tidied := answers_uphold (fun entry met => types entry (met.append later))
      (fun fragment learns => primitives fragment (learns.append later)) call answered schema member
    exact tidied.obeys

theorem builtins_wellFormed (seating : Seating) {name : String} {fragment : Value}
    (member : (name, fragment) ∈ Registry.builtins.fragments) : fragment.Obeys seating WellFormed .schema := by
  suffices all : ∀ entry ∈ Registry.builtins.fragments, entry.2.Obeys seating WellFormed .schema from all _ member
  simp [Registry.builtins, wellFormed_type, wellFormed_of_notMem]

/-- What was checked against the rules for definitions is as definitions are. -/
theorem models_of_checked {catalog : Catalog} {history : List Action}
    (checked : ∀ entry, Meets catalog history entry →
      ∃ definition value, entry = .checked definition ∧ Definition.check value = .ok definition) (entry : Entry)
    (met : Meets catalog history entry) : ∃ definition, entry = .checked definition ∧ definition.IsModel := by
  obtain ⟨definition, value, same, read⟩ := checked entry met
  exact ⟨definition, same, Definition.isModel_of_check read⟩

/-- A product with a choice, a union and a sum, all of which may be null, without any fragment of type null. -/
theorem schemas_well_formed_of_order :
    let color : Definition := .sum "color" ["red", "green"]
    let either : Definition := .union "either" [.text "color", .text "[integer?]"]
    let order : Definition := .product "order"
      [⟨"color", .text "color?", none, none, none⟩, ⟨"either", .text "either?", none, none, none⟩,
        ⟨"size", .text "string?", none, none, some ["small", "large"]⟩] none none "application/json"
    let called : Mode := .union .jsonSchema .refSchema
    let history : List Action :=
      [.registerType none (.checked color), .registerType none (.checked either), .registerType none (.checked order),
        .compile (.written (.text "order?")) called]
    let compiler := (new .empty .builtins called none).after history
    Record.names (compiler.table (.of none called)) = ["color", "either", "order"] ∧
      ∀ name body, (name, body) ∈ compiler.table (.of none called) → body.Obeys .usual WellFormed := by
  intro color either order called history compiler
  have checked (entry : Entry) (met : Meets .empty history entry) :
      ∃ definition value, entry = .checked definition ∧ Definition.check value = .ok definition := by
    obtain held | ⟨action, listed, brings⟩ := met
    · cases held
    · simp only [history, List.mem_cons, List.not_mem_nil, or_false] at listed
      obtain rfl | rfl | rfl | rfl := listed
      · exact ⟨color, color.toValue, brings.symm, rfl⟩
      · exact ⟨either, either.toValue, brings.symm, rfl⟩
      · exact ⟨order, order.toValue, brings.symm, rfl⟩
      · cases brings
  have builtin {fragment : Value} (supplied : Supplied .empty .builtins history fragment) :
      ∃ name, (name, fragment) ∈ Registry.builtins.fragments := by
    obtain ⟨name, known | learned⟩ | ⟨name, record, met, -⟩ := supplied
    · exact ⟨name, known⟩
    · simp [history] at learned
    · obtain held | ⟨action, listed, brings⟩ := met
      · cases held
      · simp only [history, List.mem_cons, List.not_mem_nil, or_false] at listed
        obtain rfl | rfl | rfl | rfl := listed <;> simp [Action.Brings, color, either, order] at brings
  refine ⟨by decide +kernel, fun name body member => ?_⟩
  have formed := (schemas_well_formed .usual .empty .builtins called none history
    (models_of_checked checked) fun fragment supplied => builtins_wellFormed _ (builtin supplied).choose_spec).1 _ name body member
  refine formed.imp fun key held own => own.resolve_right fun doubled => ?_
  obtain ⟨-, fragment, supplied, null⟩ := doubled.1
  obtain ⟨label, known⟩ := builtin supplied
  have plain : ∀ entry ∈ Registry.builtins.fragments, ¬ (Schema.ofValue entry.2).IsNullTyped := by
    simp [Registry.builtins, Schema.ofValue_record, Schema.ofRecord, Schema.dataParts, Schema.IsNullTyped,
      Schema.type?, Record.find?]
  exact plain _ known null

private def doublesNull : Compiled → Bool
  | .single (.keywords parts) =>
    match Schema.type? parts with
    | some (.list [.text one, .text other]) => one == other
    | _ => false
  | _ => false

private theorem not_wellFormed_of_doublesNull {compiled : Compiled} (doubles : doublesNull compiled = true)
    (seating : Seating) : ∃ schema, compiled = .single schema ∧ ¬ schema.Obeys seating WellFormed := by
  unfold doublesNull at doubles
  split at doubles
  next parts =>
    refine ⟨_, rfl, fun obeys => ?_⟩
    split at doubles
    next one other typed =>
      cases eq_of_beq doubles
      obtain ⟨name, text⟩ | ⟨names, -, distinct, items⟩ := (obeys.type typed).typed rfl
      · cases text
      · have same : [one, one].map Value.text = names.map .text := Option.some.inj items
        cases List.map_injective_iff.mpr (fun _ _ => Value.text.inj) same
        simp at distinct
    next => cases doubles
  next => cases doubles

/-- A primitive for null alone is well formed. What may also be null is not. -/
theorem null_type_doubled :
    let nothing : Value := .record [("type", .text "null")]
    let compiler := new .empty (Registry.builtins.register "nothing" nothing) .jsonSchema none
    nothing.Obeys .usual WellFormed .schema ∧
      ∃ schema, (compiler.compile (.written (.text "nothing?")) .jsonSchema).outcome = .ok (.single schema) ∧
        ¬ schema.Obeys .usual WellFormed := by
  intro nothing compiler
  refine ⟨by simp [nothing, wellFormed_type], ?_⟩
  have doubles : ((compiler.compile (.written (.text "nothing?")) .jsonSchema).outcome.toOption.map doublesNull) =
      some true := by decide +kernel
  obtain ⟨compiled, answered, doubles⟩ := Option.map_eq_some_iff.mp doubles
  obtain ⟨schema, rfl, malformed⟩ := not_wellFormed_of_doublesNull doubles .usual
  exact ⟨schema, toOption_eq_some.mp answered, malformed⟩

end Compiler

end Schemata
