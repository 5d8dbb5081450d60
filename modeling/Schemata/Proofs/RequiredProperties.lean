import Schemata.Definition.Check
import Schemata.Proofs.EmittedReferences
import Schemata.Proofs.MarkedFields

/-! Which properties are required, wherever a compiler writes properties. Each time they are the fields of a product
that the compiler has met, and the marked ones of them are required. -/

namespace Schemata

/-- If a schema lists properties that the compiler built, they are those of some definition. -/
def Schema.Declares (law : Definition → Schema.Parts → Record Schema → Prop) : Schema → Prop
  | .keywords parts => ∀ properties, Record.find? parts "properties" = some (.members properties) →
      ∃ definition, law definition parts properties
  | .data _ => True

namespace Schema

theorem Declares.imp {law other : Definition → Parts → Record Schema → Prop} {schema : Schema}
    (declares : schema.Declares law)
    (implies : ∀ definition parts properties, law definition parts properties → other definition parts properties) :
    schema.Declares other := by
  cases schema with
  | data => trivial
  | keywords parts =>
    intro properties found
    obtain ⟨definition, own⟩ := declares properties found
    exact ⟨definition, implies definition parts properties own⟩

/-- All properties that the compiler built in a schema are those of definitions. -/
def Models (met : Definition → Prop) : Schema → Prop :=
  Everywhere (Declares fun definition parts properties => met definition ∧ definition.Lists parts properties)

variable {met : Definition → Prop} {schema changed : Schema} {key : String}

theorem models_keywords {parts : Parts} :
    (keywords parts).Models met ↔
      (keywords parts).Declares (fun definition parts properties => met definition ∧ definition.Lists parts properties) ∧
        ∀ key part, (key, part) ∈ parts → ∀ sub ∈ part.held, sub.Models met :=
  everywhere_keywords

theorem models_ofRecord (record : Record Value) : (ofRecord record).Models met := by
  refine models_keywords.mpr ⟨fun properties found => ?_, fun key part member sub held => ?_⟩
  · obtain ⟨value, -, impossible⟩ := mem_dataParts (Record.mem_of_find? found)
    cases impossible
  · obtain ⟨value, -, rfl⟩ := mem_dataParts member
    cases held

theorem models_ofValue (value : Value) : (ofValue value).Models met := by
  rcases ofValue_cases value with same | ⟨record, -, same⟩ <;> rw [same]
  · exact everywhere_data.mpr trivial
  · exact models_ofRecord record

theorem Models.set {part : Part Schema} (models : schema.Models met) (other : key ∉ ["properties", "required"])
    (own : ∀ sub ∈ part.held, sub.Models met) (done : schema.set key part = .ok changed) : changed.Models met := by
  cases schema with
  | data => cases done
  | keywords parts =>
    cases done
    simp only [List.mem_cons, List.not_mem_nil, or_false, not_or] at other
    obtain ⟨declares, held⟩ := models_keywords.mp models
    refine models_keywords.mpr ⟨fun properties found => ?_, fun name part member sub inside => ?_⟩
    · rw [Record.find?_set, if_neg (Ne.symm other.1)] at found
      obtain ⟨definition, known, lists⟩ := declares properties found
      refine ⟨definition, known, ?_, lists.names, ?_⟩
      · rw [Record.find?_set, if_neg (Ne.symm other.1), found]
      · rw [Record.find?_set, if_neg (Ne.symm other.2), lists.required]
    · rcases Record.mem_set member with same | old
      · cases same
        exact own sub inside
      · exact held name part old sub inside

theorem Models.annotate {value : Option Value} (models : schema.Models met) (other : key ∉ ["properties", "required"])
    (done : schema.annotate key value = .ok changed) : changed.Models met := by
  cases value with
  | none => cases done; exact models
  | some value => exact models.set other (by simp [Part.held]) done

theorem models_null : null.Models met := models_ofRecord [("type", .text "null")]

theorem models_oneOf {alternatives : List Schema} (all : ∀ item ∈ alternatives, item.Models met) :
    (oneOf alternatives).Models met := by
  refine models_keywords.mpr ⟨nofun, fun key part member sub held => ?_⟩
  cases List.mem_singleton.mp member
  exact all sub held

private theorem models_addNull {part widened : Part Schema} (own : ∀ sub ∈ part.held, sub.Models met)
    (done : addNull part = .ok widened) : ∀ sub ∈ widened.held, sub.Models met := by
  rcases addNull_eq_ok done with ⟨items, rfl, rfl⟩ | ⟨items, -, rfl⟩
  · intro sub member
    rcases List.mem_append.mp member with old | new
    · exact own sub old
    · cases List.mem_singleton.mp new
      exact models_null
  · exact nofun

theorem Models.nullable {flagged : Bool} (models : schema.Models met) (done : schema.nullable? flagged = .ok changed) :
    changed.Models met := by
  obtain ⟨parts, rfl, admission⟩ := admission done
  cases admission with
  | alternative found _ added =>
    have own := (models_keywords.mp models).2 _ _ (Record.mem_of_find? found)
    exact models.set (by simp) (models_addNull own added) rfl
  | wrapped =>
    refine models_keywords.mpr ⟨nofun, fun key part member sub held => ?_⟩
    simp only [List.mem_cons, List.not_mem_nil, or_false, Prod.mk.injEq] at member
    rcases member with ⟨rfl, rfl⟩ | ⟨rfl, rfl⟩
    · cases List.mem_singleton.mp held
      exact models
    · cases held
  | beside => exact models_oneOf (by simpa using ⟨models, models_null⟩)
  | flagged | typed => exact models.set (by simp) (by simp [Part.held]) rfl

end Schema

section Bodies

variable {setting : Setting} {met : Definition → Prop}

private theorem models_body {properties : Part Schema} {required : List Value} {title description : Option Value}
    (held : ∀ sub ∈ properties.held, sub.Models met)
    (declares : (CompiledField.body properties required title description).Declares
      fun definition parts properties => met definition ∧ definition.Lists parts properties) :
    (CompiledField.body properties required title description).Models met := by
  refine Schema.models_keywords.mpr ⟨declares, fun key part member sub inside => ?_⟩
  cases CompiledField.says_of_mem rfl member with
  | properties => exact held sub inside
  | type | required | title | description => cases inside

private theorem models_choice (values : Value) : (Schema.choice values).Models met :=
  Schema.models_ofRecord [("type", .text "string"), ("enum", values)]

private theorem models_described {title description : Option Value} {schema changed : Schema}
    (models : schema.Models met) (done : schema.described title description = .ok changed) : changed.Models met := by
  obtain ⟨middle, titled, described⟩ := Schema.described_eq_ok.mp done
  exact (models.annotate (by simp) titled).annotate (by simp) described

theorem Setting.ShowsBody.models {definition : Definition} {body : Schema} (known : met definition)
    (shown : setting.ShowsBody (fun _ => Schema.Models met) definition body) : body.Models met := by
  cases definition with
  | scalar name fragment => cases shown; exact Schema.models_ofRecord fragment
  | sum name values => cases shown; exact models_choice _
  | input => exact shown.elim
  | product name fields title description contentType =>
    obtain ⟨parts, properties, same, lists⟩ := shown.lists rfl
    obtain ⟨compiled, all, rfl⟩ := shown
    refine models_body (List.forall_mem_map.mpr (CompiledField.forall_properties _ all fun field compiled own => ?_)) ?_
    · exact own.keeps (fun _ _ => id) (fun values _ => models_choice _) (fun _ _ => Schema.Models.nullable)
        fun _ _ => models_described
    · rw [same]
      intro others found
      cases found.symm.trans lists.declared
      exact ⟨_, known, lists⟩
  | map name valueType sample =>
    obtain ⟨keywords, shown, annotated⟩ := shown
    refine Schema.Models.annotate ?_ (by simp) annotated
    have object : Schema.object.Models met := Schema.models_ofRecord [("type", .text "object")]
    cases valueType with
    | none => cases show keywords = .object from shown; exact object
    | some type =>
      obtain ⟨values, ⟨spec, -, models⟩, done⟩ := shown
      exact object.set (by simp) (by simpa [Part.held] using models) done
  | union name alternatives =>
    obtain ⟨schemas, shown, rfl⟩ := shown
    exact Schema.models_oneOf (forall_of_forall₂ shown fun type schema own => own.elim fun _ shown => shown.2)

theorem Setting.ShowsShape.models {kind : Kind} {shape : Shape} {body : Schema}
    (shown : setting.ShowsShape (fun _ => Schema.Models met) kind shape body) : body.Models met := by
  cases kind with
  | product =>
    -- the properties are data already
    obtain ⟨members, compiled, -, -, rfl⟩ := shown
    refine models_body (fun sub held => absurd held List.not_mem_nil) fun properties found => ?_
    cases (CompiledField.find?_properties rfl).symm.trans found
  | map =>
    obtain ⟨own, valueType, keywords, -, -, shown, annotated⟩ := shown
    refine Schema.Models.annotate ?_ (by simp) annotated
    cases valueType with
    | none => cases show keywords = .ofValue own from shown; exact Schema.models_ofValue own
    | some type =>
      obtain ⟨values, ⟨spec, -, models⟩, done⟩ := shown
      exact (Schema.models_ofValue own).set (by simp) (by simpa [Part.held] using models) done
  | union =>
    obtain ⟨alternatives, schemas, -, shown, rfl⟩ := shown
    exact Schema.models_oneOf (forall_of_forall₂ shown fun type schema own => own.elim fun _ shown => shown.2)
  | scalar | sum | input =>
    obtain ⟨own, -, rfl⟩ := shown
    exact Schema.models_ofValue own

end Bodies

def Upkeep.modelling (met : Definition → Prop) : Upkeep where
  property _ _ schema := schema.Models met
  fits entry := ∀ definition, entry = .checked definition → met definition
  takes _ := True
  imp models _ := models
  reference _ := Schema.models_keywords.mpr ⟨nofun, fun key part member sub held => by
    cases List.mem_singleton.mp member
    cases held⟩
  array models := Schema.models_keywords.mpr ⟨nofun, fun key part member sub held => by
    simp only [List.mem_cons, List.not_mem_nil, or_false, Prod.mk.injEq] at member
    rcases member with ⟨rfl, rfl⟩ | ⟨rfl, rfl⟩
    · cases held
    · cases List.mem_singleton.mp held
      exact models⟩
  nullable models done := models.nullable done
  primitive _ := Schema.models_ofValue _
  scalar _ _ _ := Schema.models_ofValue _
  body {_ _ _ entry _} fits shown := by
    cases entry with
    | checked definition => exact Setting.ShowsBody.models (fits definition rfl) shown
    | handwritten shape => exact Setting.ShowsShape.models shown

def Setting.Compiles (setting : Setting) (chain : List Name) (spec : TypeSpec) (schema : Schema) : Prop :=
  ∃ before after, (compileSpec setting chain spec).run before = .ok schema after

theorem Setting.ensures_compiles (setting : Setting) (chain : List Name) (spec : TypeSpec) :
    Rules.free.Ensures (fun schema _ => setting.Compiles chain spec schema) (compileSpec setting chain spec) :=
  fun before _ after _ run => ⟨trivial, trivial, before, after, run⟩

namespace Compiler

/-- The references of a body that a call writes were compiled with the name of the definition on the chain. -/
theorem WritesBody.compiled {compiler : Compiler} {mode : Mode} {definition : Definition} {body : Schema}
    (named : definition.kind.isNamed = true) (writes : compiler.WritesBody mode definition body) :
    (compiler.setting mode).ShowsBody ((compiler.setting mode).Compiles [.text definition.name]) definition body := by
  obtain ⟨before, after, -, run⟩ := writes.ran named
  have references (spec : TypeSpec) (_ : definition.Mentions spec) :=
    (compiler.setting mode).ensures_compiles [.text definition.name] spec
  exact (Rules.Ensures.definitionBody definition (fun _ _ _ _ _ => id) references before body after trivial run).2.2

/-- Wherever a compiler writes properties, they are those of a product that it has met. -/
theorem modelled (catalog : Catalog) (registry : Registry) (mode : Mode) (base? : Option String) (history : List Action) :
    let compiler := (new catalog registry mode base?).after history
    (∀ dialect name body, (name, body) ∈ compiler.table dialect →
      body.Models fun definition => Meets catalog history (.checked definition)) ∧
    ∀ given called compiled, (compiler.compile given called).outcome = .ok compiled → ∀ schema ∈ compiled.schemas,
      schema.Models fun definition => Meets catalog (history ++ [.compile given called]) (.checked definition) := by
  intro compiler
  have fits (history : List Action) (entry : Entry) (meets : Meets catalog history entry) :
      (Upkeep.modelling fun definition => Meets catalog history (.checked definition)).fits entry := by
    intro definition same
    rwa [← same]
  constructor
  · intro dialect name body member
    have upholds : compiler.Upholds _ := after_upholds (fits history) (fun _ _ => trivial) mode base?
    exact (upholds.tables dialect _ member).property
  · intro given called compiled answered
    exact answers_uphold (fits _) (fun _ _ => trivial) rfl (congrArg Answer.call answered)

/-- The body of a product lists the required names of its marked fields, and they match the properties exactly if no
field is marked but the last of its name. It is so in every state and mode, wherever properties are written. -/
theorem required_matches_properties_iff (catalog : Catalog) (registry : Registry) (mode : Mode) (base? : Option String)
    (history : List Action) :
    let compiler := (new catalog registry mode base?).after history
    let describes (definition : Definition) (parts : Schema.Parts) (properties : Record Schema) : Prop :=
      definition.Lists parts properties ∧ (definition.RequiresMarked parts properties ↔ definition.MarksLast) ∧
        ((definition.fields.map (·.name)).Nodup → definition.RequiresMarked parts properties)
    (∀ called definition body, definition.kind = .product → compiler.WritesBody called definition body →
      ∃ parts properties, body = .keywords parts ∧ describes definition parts properties ∧
        ∀ field, definition.Has field → ∃ property, Record.find? properties field.name = some property ∧
          (compiler.setting called).ShowsField ((compiler.setting called).Compiles [.text definition.name]) field
            ⟨field.name, property, field.isMarked⟩) ∧
    (∀ dialect name body, (name, body) ∈ compiler.table dialect →
      body.Everywhere (Schema.Declares fun definition parts properties =>
        Meets catalog history (.checked definition) ∧ describes definition parts properties)) ∧
    ∀ given called compiled, (compiler.compile given called).outcome = .ok compiled →
      ∀ schema ∈ compiled.schemas, schema.Everywhere (Schema.Declares fun definition parts properties =>
        Meets catalog (history ++ [.compile given called]) (.checked definition) ∧
          describes definition parts properties) := by
  intro compiler describes
  have described {definition : Definition} {parts : Schema.Parts} {properties : Record Schema}
      (lists : definition.Lists parts properties) : describes definition parts properties := by
    have iff := lists.requiresMarked_iff
    exact ⟨lists, iff, fun distinct => iff.mpr (Definition.marksLast_of_nodup distinct)⟩
  have declared {met : Definition → Prop} {schema : Schema} (models : schema.Models met) :
      schema.Everywhere (Schema.Declares fun definition parts properties =>
        met definition ∧ describes definition parts properties) :=
    Schema.Everywhere.imp models fun _ declares =>
      declares.imp fun definition parts properties own => ⟨own.1, described own.2⟩
  obtain ⟨tables, answers⟩ := modelled catalog registry mode base? history
  refine ⟨?_, ?_, ?_⟩
  · intro called definition body product writes
    have named : definition.kind.isNamed = true := by rw [product]; rfl
    have shown := writes.compiled named
    obtain ⟨parts, properties, same, lists⟩ := shown.lists product
    refine ⟨parts, properties, same, described lists, fun field has => ?_⟩
    obtain ⟨compiled, own, found⟩ := Setting.ShowsBody.property has shown
    rw [same, Schema.property?, lists.declared] at found
    refine ⟨compiled.schema, found, ?_⟩
    rw [← Setting.ShowsField.of_field own]
    exact own
  · intro dialect name body member
    exact declared (tables dialect name body member)
  · intro given called compiled answered schema member
    exact declared (answers given called compiled answered schema member)

theorem single_of_isSome {outcome : Except CompileError Compiled}
    (succeeds : (outcome.toOption.bind (·.single?)).isSome = true) : ∃ schema, outcome = .ok (.single schema) := by
  obtain ⟨schema, found⟩ := Option.isSome_iff_exists.mp succeeds
  obtain ⟨compiled, ok, single⟩ := Option.bind_eq_some_iff.mp found
  exact ⟨schema, by rw [toOption_eq_some.mp ok, Compiled.single?_eq_some.mp single]⟩

/-- Three fields are marked or not, and the product is compiled alone and into a table. -/
theorem required_matches_properties_iff_of_pet :
    let id : Field := ⟨"id", .text "!integer", none, none, none⟩
    let coat : Field := ⟨"coat", .text "string", none, none, some ["long", "short"]⟩
    let tag : Field := ⟨"tag", .text "![string]?", some "Tag", none, none⟩
    let pet : Definition := .product "Pet" [id, coat, tag] none none "application/json"
    let called : Mode := .union .jsonSchema .refSchema
    let history : List Action := [.registerType none (.checked pet), .compile (.written (.text "Pet")) called]
    let compiler := (new .empty .builtins called none).after history
    (∃ body parts properties, pet.kind = .product ∧ compiler.WritesBody .jsonSchema pet body ∧ body = .keywords parts ∧
        (pet.fields.map (·.name)).Nodup ∧ pet.RequiresMarked parts properties) ∧
      (∃ body, ("Pet", body) ∈ compiler.table (compiler.dialect called) ∧
        body.Everywhere (Schema.Declares fun definition parts properties => definition.Lists parts properties)) ∧
      ∃ compiled, (compiler.compile (.written (.text "Pet")) .jsonSchema).outcome = .ok compiled ∧
        ∀ schema ∈ compiled.schemas,
          schema.Everywhere (Schema.Declares fun definition parts properties => definition.Lists parts properties) := by
  intro id coat tag pet called history compiler
  obtain ⟨body, writes⟩ : ∃ body, compiler.WritesBody .jsonSchema pet body := single_of_isSome (by decide +kernel)
  obtain ⟨schema, named⟩ :
      ∃ schema, (compiler.compile (.written (.text "Pet")) .jsonSchema).outcome = .ok (.single schema) :=
    single_of_isSome (by decide +kernel)
  obtain ⟨stored, listed⟩ : ∃ body, ("Pet", body) ∈ compiler.table (compiler.dialect called) :=
    Record.exists_of_mem_names (by decide +kernel)
  obtain ⟨bodies, tables, answers⟩ := required_matches_properties_iff .empty .builtins called none history
  obtain ⟨parts, properties, same, ⟨-, -, matched⟩, -⟩ := bodies .jsonSchema pet body rfl writes
  have distinct : (pet.fields.map (·.name)).Nodup := by decide
  have forget {met : Definition → Prop} {describes : Definition → Schema.Parts → Record Schema → Prop} {schema : Schema}
      (all : schema.Everywhere (Schema.Declares fun definition parts properties =>
        met definition ∧ definition.Lists parts properties ∧ describes definition parts properties)) :
      schema.Everywhere (Schema.Declares fun definition parts properties => definition.Lists parts properties) :=
    all.imp fun _ declares => declares.imp fun definition parts properties own => own.2.1
  refine ⟨⟨body, parts, properties, rfl, writes, same, distinct, matched distinct⟩, ⟨stored, listed, ?_⟩, _, named, ?_⟩
  · exact forget (tables _ "Pet" stored listed)
  · exact fun schema member => forget (answers _ _ _ named schema member)

/-- A field takes the place of a marked one, and its name is still required. -/
theorem replaced_field_stays_required :
    let marked : Field := ⟨"a", .text "!integer", none, none, none⟩
    let last : Field := ⟨"a", .text "string", none, none, none⟩
    let definition : Definition := .product "P" [marked, last] none none "application/json"
    let compiler := new .empty .builtins .jsonSchema none
    Definition.check definition.toValue = .ok definition ∧
      ∃ parts properties, compiler.WritesBody .jsonSchema definition (.keywords parts) ∧
        Record.find? parts "properties" = some (.members properties) ∧
        Record.find? parts "required" = some (.data (.list [.text "a"])) ∧
        definition.Has last ∧ last.isMarked = false ∧ ¬ definition.RequiresMarked parts properties := by
  intro marked last definition compiler
  obtain ⟨body, writes⟩ : ∃ body, compiler.WritesBody .jsonSchema definition body := single_of_isSome (by decide +kernel)
  obtain ⟨parts, properties, rfl, lists⟩ := (writes.compiled rfl).lists rfl
  have required : Record.find? parts "required" = some (.data (.list [.text "a"])) := by
    have names : Field.markedNames definition.fields = ["a"] := by decide +kernel
    rw [lists.required, names]
    rfl
  have own : marked.isMarked = true := by decide +kernel
  refine ⟨rfl, parts, properties, writes, lists.declared, required, Definition.has_iff.mpr ⟨[marked], [], rfl, nofun⟩,
    by decide +kernel, fun requires => ?_⟩
  have apart := (lists.requiresMarked_iff.mp requires).last
  exact (List.pairwise_cons.mp apart).1 last (List.mem_singleton.mpr rfl) own rfl

end Compiler

end Schemata
