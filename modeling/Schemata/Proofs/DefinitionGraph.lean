import Schemata.Proofs.CatalogGrowth
import Schemata.Proofs.WalkAgreement
import Mathlib.Logic.Relation

/-! What hoisting is to produce, said without a walk. The references of definitions make the catalog a
graph. A body in which every named type is only referred to is found by going through the brackets of
each reference; neither the graph nor these bodies know of tables, chains or what was compiled before. -/

namespace Schemata

theorem toOption_eq_some {outcome : Except ε α} {value : α} :
    outcome.toOption = some value ↔ outcome = .ok value := by
  cases outcome <;> simp [Except.toOption]

/-- The name inside all brackets. -/
def TypeSpec.base : TypeSpec → String
  | .named name _ _ => name
  | .array element _ _ => element.base

theorem TypeSpec.base_optional (spec : TypeSpec) : spec.optional.base = spec.base := by
  cases spec <;> rfl

namespace Catalog

variable (catalog : Catalog) (registry : Registry)

def Denotes (spec : TypeSpec) (definition : Definition) : Prop :=
  ∃ kind, classify catalog registry spec.base = .ok (.entry kind (.checked definition))

def Uses (definition other : Definition) : Prop :=
  ∃ spec, definition.Mentions spec ∧ catalog.Denotes registry spec other

inductive Starts : Referent → Definition → Prop where
  | written {value : Value} {spec : TypeSpec} {definition : Definition} (read : TypeSpec.read false value = .ok spec)
      (denotes : catalog.Denotes registry spec definition) : Starts (.written value) definition
  | definition (definition : Definition) : Starts (.entry (.checked definition)) definition

def Reaches (given : Referent) (definition : Definition) : Prop :=
  ∃ root, catalog.Starts registry given root ∧ Relation.ReflTransGen (catalog.Uses registry) root definition

variable {catalog registry}

theorem Denotes.held {spec : TypeSpec} {definition : Definition} (denotes : catalog.Denotes registry spec definition) :
    .checked definition ∈ catalog.toList := by
  obtain ⟨kind, classified⟩ := denotes
  exact mem_of_classify_eq classified

theorem Denotes.kind {spec : TypeSpec} {definition : Definition} (denotes : catalog.Denotes registry spec definition) :
    classify catalog registry spec.base = .ok (.entry definition.kind (.checked definition)) := by
  obtain ⟨kind, classified⟩ := denotes
  rwa [classify_checked classified]

theorem Uses.held {definition other : Definition} (uses : catalog.Uses registry definition other) :
    .checked other ∈ catalog.toList := by
  obtain ⟨spec, -, denotes⟩ := uses
  exact denotes.held

theorem Denotes.of_grown {grown : Catalog} (front : catalog.entries <+: grown.entries) {spec : TypeSpec}
    {definition : Definition} (denotes : catalog.Denotes registry spec definition) :
    grown.Denotes registry spec definition := by
  obtain ⟨kind, classified⟩ := denotes
  exact ⟨kind, classify_of_grown front classified⟩

theorem Reaches.of_grown {grown : Catalog} (front : catalog.entries <+: grown.entries) {given : Referent}
    {definition : Definition} (reaches : catalog.Reaches registry given definition) :
    grown.Reaches registry given definition := by
  obtain ⟨root, starts, path⟩ := reaches
  have wider (one other : Definition) : catalog.Uses registry one other → grown.Uses registry one other :=
    fun ⟨spec, mentions, denotes⟩ => ⟨spec, mentions, denotes.of_grown front⟩
  refine ⟨root, ?_, Relation.ReflTransGen.mono wider _ _ path⟩
  cases starts with
  | written read denotes => exact .written read (denotes.of_grown front)
  | definition => exact .definition root

end Catalog

inductive Denotation (catalog : Catalog) (registry : Registry) (name : String) : Prop where
  | nothing {error : CompileError} (classified : classify catalog registry name = .error error)
  | primitive {fragment : Value} (classified : classify catalog registry name = .ok (.primitive fragment))
  | input {entry : Entry} (classified : classify catalog registry name = .ok (.entry .input entry))
  | scalar {entry : Entry} (classified : classify catalog registry name = .ok (.entry .scalar entry))
  | type {kind : Kind} {entry : Entry} (named : kind.isNamed = true)
      (classified : classify catalog registry name = .ok (.entry kind entry))

theorem denotation (catalog : Catalog) (registry : Registry) (name : String) : Denotation catalog registry name := by
  cases classified : classify catalog registry name with
  | error error => exact .nothing classified
  | ok found =>
    cases found with
    | primitive fragment => exact .primitive classified
    | entry kind entry =>
      cases kind with
      | input => exact .input classified
      | scalar => exact .scalar classified
      | product | sum | map | union => exact .type rfl classified

/-- A name stands for nothing, for an input type, or for what may be nested. -/
theorem classify_cases (catalog : Catalog) (registry : Registry) (name : String) :
    (∃ error, classify catalog registry name = .error error) ∨
      (∃ entry, classify catalog registry name = .ok (.entry .input entry)) ∨
      ∃ found, classify catalog registry name = .ok found ∧ ∀ entry, found ≠ .entry .input entry := by
  cases denotation catalog registry name with
  | nothing classified => exact .inl ⟨_, classified⟩
  | input classified => exact .inr (.inl ⟨_, classified⟩)
  | primitive classified | scalar classified => exact .inr (.inr ⟨_, classified, nofun⟩)
  | type named classified =>
    refine .inr (.inr ⟨_, classified, fun entry same => ?_⟩)
    cases same
    cases named

inductive CheckedDenotation (catalog : Catalog) (registry : Registry) (name : String) : Prop where
  | nothing {error : CompileError} (classified : classify catalog registry name = .error error)
  | fragment {fragment : Value} (supplies : catalog.Supplies registry name fragment)
  | input {label : String} {parameters : List Parameter}
      (classified : classify catalog registry name = .ok (.entry .input (.checked (.input label parameters))))
  | type {definition : Definition} (named : definition.kind.isNamed = true)
      (classified : classify catalog registry name = .ok (.entry definition.kind (.checked definition)))

theorem Catalog.OfDefinitions.denotation {catalog : Catalog} (built : catalog.OfDefinitions) (registry : Registry)
    (name : String) : CheckedDenotation catalog registry name := by
  cases Schemata.denotation catalog registry name with
  | nothing classified => exact .nothing classified
  | primitive classified => exact .fragment (.primitive classified)
  | input classified =>
    obtain ⟨label, parameters, rfl⟩ := built.input classified
    exact .input classified
  | scalar classified =>
    obtain ⟨label, fragment, rfl⟩ := built.scalar classified
    exact .fragment (.scalar classified)
  | type named classified =>
    obtain ⟨definition, rfl⟩ := built.checked (mem_of_classify_eq classified)
    obtain rfl := classify_checked classified
    exact .type named classified

namespace Setting

variable (setting : Setting)

/-- The schema of a reference in which a named type is only referred to. -/
@[simp] def outline? : TypeSpec → Option Schema
  | .named name _ nullable =>
    match classify setting.catalog setting.registry name with
    | .ok (.primitive fragment) => (setting.widened nullable (.ofValue fragment)).toOption
    | .ok (.entry .scalar entry) =>
      entry.fragment.toOption.bind fun fragment => (setting.widened nullable (.ofValue fragment)).toOption
    | .ok (.entry .input _) => none
    | .ok (.entry _ entry) =>
      match entry.name with
      | .text name => (setting.widened nullable (.reference setting.dialect.base name)).toOption
      | .other .. => none
    | .error _ => none
  | .array element _ nullable =>
    (outline? element).bind fun items => (setting.widened nullable (.array items)).toOption

/-- The body of a definition in which every named type is only referred to. -/
def bodyOutline? (definition : Definition) : Option Schema :=
  let compile (spec : TypeSpec) : Walk Schema :=
    match setting.outline? spec with
    | some schema => pure schema
    | none => throw (.unusable .unsuitable)
  match (setting.definitionBody compile definition).run ⟨[], [], []⟩ with
  | .ok body _ => some body
  | .error .. => none

/-- The schema of a reference is its outline, and the type that it names is among some names. -/
structure Settled (names : String → Prop) (spec : TypeSpec) (schema : Schema) : Prop where
  outlined : setting.outline? spec = some schema
  listed : ∀ definition, setting.catalog.Denotes setting.registry spec definition →
    definition.kind.isNamed = true → names definition.name

variable {setting}

theorem outline?_primitive {name : String} {required nullable : Bool} {fragment : Value} {schema : Schema}
    (classified : classify setting.catalog setting.registry name = .ok (.primitive fragment)) :
    setting.outline? (.named name required nullable) = some schema ↔
      setting.widened nullable (.ofValue fragment) = .ok schema := by
  simp only [outline?, classified, toOption_eq_some]

theorem outline?_scalar {name : String} {required nullable : Bool} {entry : Entry} {schema : Schema}
    (classified : classify setting.catalog setting.registry name = .ok (.entry .scalar entry)) :
    setting.outline? (.named name required nullable) = some schema ↔
      ∃ fragment, entry.fragment = .ok fragment ∧ setting.widened nullable (.ofValue fragment) = .ok schema := by
  simp only [outline?, classified, Option.bind_eq_some_iff, toOption_eq_some]

theorem outline?_named {name text : String} {required nullable : Bool} {kind : Kind} {entry : Entry} {schema : Schema}
    (named : kind.isNamed = true) (known : entry.name = .text text)
    (classified : classify setting.catalog setting.registry name = .ok (.entry kind entry)) :
    setting.outline? (.named name required nullable) = some schema ↔
      setting.widened nullable (.reference setting.dialect.base text) = .ok schema := by
  cases kind with
  | scalar | input => cases named
  | product | sum | map | union => simp only [outline?, classified, known, toOption_eq_some]

theorem outline?_array {element : TypeSpec} {required nullable : Bool} {schema : Schema} :
    setting.outline? (.array element required nullable) = some schema ↔
      ∃ items, setting.outline? element = some items ∧ setting.widened nullable (.array items) = .ok schema := by
  simp only [outline?, Option.bind_eq_some_iff, toOption_eq_some]

inductive NameOutline (setting : Setting) (name : String) (nullable : Bool) (schema : Schema) : Prop where
  | primitive {fragment : Value} (classified : classify setting.catalog setting.registry name = .ok (.primitive fragment))
      (widened : setting.widened nullable (.ofValue fragment) = .ok schema)
  | scalar {entry : Entry} {fragment : Value}
      (classified : classify setting.catalog setting.registry name = .ok (.entry .scalar entry))
      (read : entry.fragment = .ok fragment) (widened : setting.widened nullable (.ofValue fragment) = .ok schema)
  | type {kind : Kind} {entry : Entry} {text : String} (named : kind.isNamed = true)
      (classified : classify setting.catalog setting.registry name = .ok (.entry kind entry))
      (own : entry.name = .text text) (widened : setting.widened nullable (.reference setting.dialect.base text) = .ok schema)

theorem nameOutline {name : String} {required nullable : Bool} {schema : Schema}
    (outlined : setting.outline? (.named name required nullable) = some schema) :
    setting.NameOutline name nullable schema := by
  cases denotation setting.catalog setting.registry name with
  | nothing classified => simp [outline?, classified] at outlined
  | primitive classified => exact .primitive classified ((outline?_primitive classified).mp outlined)
  | input classified => simp [outline?, classified] at outlined
  | scalar classified =>
    obtain ⟨fragment, read, widened⟩ := (outline?_scalar classified).mp outlined
    exact .scalar classified read widened
  | @type kind entry named classified =>
    cases own : entry.name with
    | text text => exact .type named classified own ((outline?_named named own classified).mp outlined)
    | other =>
      cases kind with
      | scalar | input => cases named
      | product | sum | map | union => simp [outline?, classified, own] at outlined

inductive CheckedOutline (setting : Setting) (name : String) (nullable : Bool) (schema : Schema) : Prop where
  | fragment {fragment : Value} (supplies : setting.catalog.Supplies setting.registry name fragment)
      (widened : setting.widened nullable (.ofValue fragment) = .ok schema)
  | type {definition : Definition} (named : definition.kind.isNamed = true)
      (classified : classify setting.catalog setting.registry name = .ok (.entry definition.kind (.checked definition)))
      (widened : setting.widened nullable (.reference setting.dialect.base definition.name) = .ok schema)

theorem checkedOutline (built : setting.catalog.OfDefinitions) {name : String} {required nullable : Bool} {schema : Schema}
    (outlined : setting.outline? (.named name required nullable) = some schema) :
    setting.CheckedOutline name nullable schema := by
  cases nameOutline outlined with
  | primitive classified widened => exact .fragment (.primitive classified) widened
  | scalar classified read widened => exact .fragment (.of_scalar built classified read) widened
  | type named classified own widened =>
    obtain ⟨definition, rfl⟩ := built.checked (mem_of_classify_eq classified)
    obtain rfl := classify_checked classified
    cases own
    exact .type named classified widened

theorem outline?_optional (spec : TypeSpec) : setting.outline? spec.optional = setting.outline? spec := by
  cases spec <;> rfl

theorem classified_of_outline {spec : TypeSpec} {schema : Schema} (outlined : setting.outline? spec = some schema) :
    ∃ found, classify setting.catalog setting.registry spec.base = .ok found ∧
      ∀ entry, found ≠ .entry .input entry := by
  induction spec generalizing schema with
  | named name required nullable =>
    cases classified : classify setting.catalog setting.registry name with
    | error error => simp [outline?, classified] at outlined
    | ok found =>
      refine ⟨found, classified, ?_⟩
      intro entry same
      subst same
      simp [outline?, classified] at outlined
  | array element required nullable ih =>
    obtain ⟨items, inner, -⟩ := outline?_array.mp outlined
    exact ih inner

def withCatalog (setting : Setting) (catalog : Catalog) : Setting := { setting with catalog }

variable {catalog : Catalog}

theorem outline?_of_grown (front : setting.catalog.entries <+: catalog.entries) {spec : TypeSpec} {schema : Schema}
    (outlined : setting.outline? spec = some schema) : (setting.withCatalog catalog).outline? spec = some schema := by
  induction spec generalizing schema with
  | named name required nullable =>
    obtain ⟨found, classified, -⟩ := classified_of_outline outlined
    have again := Catalog.classify_of_grown front classified
    rw [TypeSpec.base] at classified again
    simp only [outline?, classified, withCatalog, again] at outlined ⊢
    exact outlined
  | array element required nullable ih =>
    obtain ⟨items, inner, widened⟩ := outline?_array.mp outlined
    exact outline?_array.mpr ⟨items, ih inner, widened⟩

theorem Settled.imp {names other : String → Prop} {spec : TypeSpec} {schema : Schema}
    (settled : setting.Settled names spec schema) (implies : ∀ name, names name → other name) :
    setting.Settled other spec schema :=
  ⟨settled.outlined, fun definition denotes named => implies _ (settled.listed definition denotes named)⟩

/-- What a reference stands for does not change any more, so nothing else gets to be listed. -/
theorem Settled.of_grown (front : setting.catalog.entries <+: catalog.entries) {names : String → Prop}
    {spec : TypeSpec} {schema : Schema} (settled : setting.Settled names spec schema) :
    (setting.withCatalog catalog).Settled names spec schema := by
  refine ⟨outline?_of_grown front settled.outlined, fun definition denotes named => ?_⟩
  obtain ⟨found, classified, -⟩ := classified_of_outline settled.outlined
  obtain ⟨kind, again⟩ := denotes
  cases (Catalog.classify_of_grown front classified).symm.trans again
  exact settled.listed definition ⟨kind, classified⟩ named

theorem Settled.optional {names : String → Prop} {spec : TypeSpec} {schema : Schema} :
    setting.Settled names spec.optional schema ↔ setting.Settled names spec schema := by
  constructor
  · intro settled
    obtain ⟨outlined, listed⟩ := settled
    exact ⟨outline?_optional spec ▸ outlined, fun definition denotes => listed definition (by
      rwa [Catalog.Denotes, TypeSpec.base_optional])⟩
  · intro settled
    obtain ⟨outlined, listed⟩ := settled
    exact ⟨(outline?_optional spec).trans outlined, fun definition denotes => listed definition (by
      rwa [Catalog.Denotes, TypeSpec.base_optional] at denotes)⟩

theorem Settled.array {names : String → Prop} {element : TypeSpec} {required nullable : Bool} {items schema : Schema}
    (settled : setting.Settled names element items) (widened : setting.widened nullable (.array items) = .ok schema) :
    setting.Settled names (.array element required nullable) schema :=
  ⟨outline?_array.mpr ⟨items, settled.outlined, widened⟩, settled.listed⟩

section Names

variable {names : String → Prop} {name : String} {required nullable : Bool} {schema : Schema}

theorem settled_primitive {fragment : Value}
    (classified : classify setting.catalog setting.registry name = .ok (.primitive fragment))
    (widened : setting.widened nullable (.ofValue fragment) = .ok schema) :
    setting.Settled names (.named name required nullable) schema := by
  refine ⟨(outline?_primitive classified).mpr widened, fun definition denotes => ?_⟩
  cases classified.symm.trans denotes.kind

theorem settled_scalar {entry : Entry} {fragment : Value}
    (classified : classify setting.catalog setting.registry name = .ok (.entry .scalar entry))
    (read : entry.fragment = .ok fragment) (widened : setting.widened nullable (.ofValue fragment) = .ok schema) :
    setting.Settled names (.named name required nullable) schema := by
  refine ⟨(outline?_scalar classified).mpr ⟨fragment, read, widened⟩, fun definition denotes named => ?_⟩
  rw [(Classified.entry.inj (Except.ok.inj (denotes.kind.symm.trans classified))).1] at named
  cases named

theorem settled_named {kind : Kind} {entry : Entry} {text : String} (kindNamed : kind.isNamed = true)
    (classified : classify setting.catalog setting.registry name = .ok (.entry kind entry))
    (known : entry.name = .text text) (listed : names text)
    (widened : setting.widened nullable (.reference setting.dialect.base text) = .ok schema) :
    setting.Settled names (.named name required nullable) schema := by
  refine ⟨(outline?_named kindNamed known classified).mpr widened, fun definition denotes _ => ?_⟩
  cases classified.symm.trans denotes.kind
  cases known
  exact listed

end Names

/-- A body that shows every reference by its outline is the outline of the body. -/
theorem bodyOutline?_eq_some {definition : Definition} {body : Schema}
    (shown : setting.ShowsBody (fun spec schema => setting.outline? spec = some schema) definition body) :
    setting.bodyOutline? definition = some body := by
  let compile (spec : TypeSpec) : Walk Schema :=
    match setting.outline? spec with
    | some schema => pure schema
    | none => throw (.unusable .unsuitable)
  have yields : Rules.free.Yields (setting.definitionBody compile definition) body := by
    refine Rules.Yields.definitionBody (shown.imp fun spec schema _ outlined => ?_)
    simp only [compile, outlined]
    exact Rules.Yields.pure schema
  obtain ⟨after, run, -⟩ := yields ⟨[], [], []⟩ trivial
  simp only [bodyOutline?, compile] at run ⊢
  rw [run]

end Setting

end Schemata
