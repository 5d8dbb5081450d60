import Schemata.Proofs.HoistingSimulation
import Schemata.Proofs.InlinedTypes
import Schemata.Proofs.UnfoldedSchemas
import Mathlib.Order.Filter.AtTopBot.Basic

/-! Hoisting and writing out agree. The schema that hoisting has for a reference unfolds, through the table,
to the schema in which all types are written out. How deep the unfolding goes is found along the way in
which the reference is written out. -/

namespace Schemata

def Registry.IsNullFree (registry : Registry) : Prop :=
  ∀ name fragment, (name, fragment) ∈ registry.fragments → fragment ≠ Schema.null.toValue

def Catalog.IsNullFree (catalog : Catalog) : Prop :=
  ∀ name fragment, .checked (.scalar name fragment) ∈ catalog.toList → Value.record fragment ≠ Schema.null.toValue

theorem Registry.builtins_isNullFree : builtins.IsNullFree := by
  intro name fragment member
  simp only [builtins, List.mem_cons, Prod.mk.injEq, List.not_mem_nil, or_false] at member
  rcases member with ⟨-, rfl⟩ | ⟨-, rfl⟩ | ⟨-, rfl⟩ | ⟨-, rfl⟩ | ⟨-, rfl⟩ | ⟨-, rfl⟩ | ⟨-, rfl⟩ | ⟨-, rfl⟩ | ⟨-, rfl⟩
  all_goals simp [Value.record, Schema.toValue, Schema.null, Schema.entries, Schema.partValue]

namespace Schema

private theorem ne_null_of_find? {parts : Parts} {name : String} {part : Part Schema}
    (found : Record.find? parts name = some part) (other : name ≠ "type") :
    (keywords parts).toValue ≠ null.toValue := by
  intro same
  have entries : entries parts = [(.text "type", .text "null")] := Value.map.inj same
  have held := find?_entries parts name
  rw [entries, found] at held
  simp [Value.find?, Value.isText, other.symm] at held

private theorem typeWithNull_ne_null (type : Value) : typeWithNull type ≠ .text "null" := by
  unfold typeWithNull
  split
  next types listed =>
    split
    · rintro rfl
      cases listed
    · nofun
  next => nofun

private theorem nullable?_ne_null {schema widened : Schema} (done : schema.nullable? false = .ok widened) :
    widened.toValue ≠ null.toValue := by
  obtain ⟨parts, -, admission⟩ := admission done
  have alternatives (parts : Parts) (part : Part Schema) :
      (keywords (Record.set parts "oneOf" part)).toValue ≠ null.toValue :=
    ne_null_of_find? (by rw [Record.find?_set, if_pos rfl]) (by simp)
  cases admission with
  | alternative => exact alternatives parts _
  | beside => exact alternatives [] _
  | wrapped flag | flagged flag => cases flag
  | @typed type =>
    intro same
    have entries : entries (Record.set parts "type" (.data (typeWithNull type))) = [(.text "type", .text "null")] :=
      Value.map.inj same
    have held := find?_entries (Record.set parts "type" (.data (typeWithNull type))) "type"
    rw [entries, Record.find?_set, if_pos rfl] at held
    exact typeWithNull_ne_null type (Option.some.inj held).symm

end Schema

private theorem eventually_forall₂ {related : Nat → α → β → Prop} {first : List α} {second : List β}
    (all : List.Forall₂ (fun one other => ∀ᶠ depth in Filter.atTop, related depth one other) first second) :
    ∀ᶠ depth in Filter.atTop, List.Forall₂ (related depth) first second := by
  induction all with
  | nil => exact .of_forall fun _ => .nil
  | cons own _ ih =>
    filter_upwards [own, ih] with depth here there
    exact .cons here there

/-- A body has only so many references, so a depth that is enough for each is enough for all. -/
theorem Schema.Pairs.eventually {related : Nat → Schema → Schema → Prop} {first second : Schema}
    (pairs : Pairs (fun one other => ∀ᶠ depth in Filter.atTop, related depth one other) first second) :
    ∀ᶠ depth in Filter.atTop, Pairs (related depth) first second := by
  cases pairs with
  | choice values => exact .of_forall fun _ => .choice values
  | product title description fields =>
    have each : ∀ᶠ depth in Filter.atTop, List.Forall₂ (CompiledField.Pairs (related depth)) _ _ :=
      eventually_forall₂ (fields.imp fun one other pair => by
        obtain ⟨schema, twin, title, description, own, here, there⟩ := pair.schema
        filter_upwards [own] with depth enough
        exact ⟨pair.name, pair.required, schema, twin, title, description, enough, here, there⟩)
    filter_upwards [each] with depth all
    exact .product title description all
  | map values sample =>
    cases values with
    | none => exact .of_forall fun _ => .map .none sample
    | some own =>
      filter_upwards [own] with depth enough
      exact .map (.some enough) sample
  | union alternatives =>
    filter_upwards [eventually_forall₂ alternatives] with depth all
    exact .union all

namespace Setting

variable {setting : Setting} {table : Table}

private theorem widened_ne_null {nullable : Bool} {schema widened : Schema} (unflagged : setting.dialect.flagged = false)
    (other : schema.toValue ≠ Schema.null.toValue) (done : setting.widened nullable schema = .ok widened) :
    widened.toValue ≠ Schema.null.toValue := by
  unfold Setting.widened at done
  cases nullable with
  | false =>
    cases done
    exact other
  | true =>
    rw [if_pos rfl, unflagged] at done
    exact Schema.nullable?_ne_null done

theorem hasKey_of_supplies (catalogFree : setting.catalog.IsReferenceFree) (registryFree : setting.registry.IsReferenceFree)
    {name : String} {fragment : Value} (supplies : setting.catalog.Supplies setting.registry name fragment) :
    fragment.hasKey "$ref" = false := by
  cases supplies with
  | primitive classified => exact registryFree name fragment (Registry.mem_of_get? (classify_primitive.mp classified))
  | scalar classified => exact catalogFree _ (mem_of_classify_eq classified)

theorem Settled.ne_null {names : String → Prop} {spec : TypeSpec} {schema : Schema}
    (settled : setting.Settled names spec schema) (built : setting.catalog.OfDefinitions)
    (catalogNullFree : setting.catalog.IsNullFree) (registryNullFree : setting.registry.IsNullFree)
    (unflagged : setting.dialect.flagged = false) : schema.toValue ≠ Schema.null.toValue := by
  have outlined := settled.outlined
  cases spec with
  | array element required nullable =>
    obtain ⟨items, -, widened⟩ := outline?_array.mp outlined
    have apart : (Schema.array items).toValue ≠ Schema.null.toValue :=
      Schema.ne_null_of_find? (show Record.find? _ "items" = some _ from rfl) (by simp)
    exact widened_ne_null unflagged apart widened
  | named name required nullable =>
    cases checkedOutline built outlined with
    | @fragment fragment supplies widened =>
      have apart : fragment ≠ Schema.null.toValue := by
        cases supplies with
        | primitive classified => exact registryNullFree _ _ (Registry.mem_of_get? (classify_primitive.mp classified))
        | scalar classified => exact catalogNullFree _ _ (mem_of_classify_eq classified)
      exact widened_ne_null unflagged (by rwa [Schema.toValue_ofValue]) widened
    | @type definition named classified widened =>
      have apart : (Schema.reference setting.dialect.base definition.name).toValue ≠ Schema.null.toValue :=
        Schema.ne_null_of_find? (show Record.find? _ "$ref" = some _ from rfl) (by simp)
      exact widened_ne_null unflagged apart widened

/-- Induction on how a reference is written out, with the schema that hoisting has for it beside the one written out.
For a named type the table holds a body that differs from the one written out only at the references in it, and of these
the motive may be assumed. -/
theorem Inlines.induction_beside (built : setting.catalog.OfDefinitions)
    (stored : ∀ entry ∈ table, setting.hoisted.Stores (· ∈ Record.names table) entry.1 entry.2)
    {motive : TypeSpec → Schema → Schema → Prop}
    (fragment : ∀ {name value required nullable schema}, setting.catalog.Supplies setting.registry name value →
      setting.widened nullable (.ofValue value) = .ok schema → motive (.named name required nullable) schema schema)
    (array : ∀ {element required nullable items itemsToo schema other}, motive element items itemsToo →
      setting.widened nullable (.array items) = .ok schema → setting.widened nullable (.array itemsToo) = .ok other →
      motive (.array element required nullable) schema other)
    (named : ∀ {name required nullable definition stand body schema other},
      setting.catalog.Denotes setting.registry (.named name required nullable) definition →
      definition.kind.isNamed = true →
      table.body? setting.dialect.base (.text (setting.dialect.base ++ definition.name)) = some stand.toValue →
      setting.ShowsBody setting.Inlines definition body →
      (∀ related : Schema → Schema → Prop,
        (∀ next one two, definition.Mentions next → setting.hoisted.Settled (· ∈ Record.names table) next one →
          motive next one two → related one two) →
        (∀ nullable values schema, setting.widened nullable (.choice values) = .ok schema → related schema schema) →
        Schema.Pairs related stand body) →
      setting.widened nullable (.reference setting.dialect.base definition.name) = .ok schema →
      setting.widened nullable body = .ok other → motive (.named name required nullable) schema other)
    {spec : TypeSpec} {schema other : Schema} (inlines : setting.Inlines spec other)
    (settled : setting.hoisted.Settled (· ∈ Record.names table) spec schema) : motive spec schema other := by
  induction inlines generalizing schema with
  | primitive classified widened =>
    have classifiedToo : classify setting.hoisted.catalog setting.hoisted.registry _ = _ := classified
    have here := (outline?_primitive classifiedToo).mp settled.outlined
    cases here.symm.trans widened
    exact fragment (.primitive classified) widened
  | scalar classified read widened =>
    have classifiedToo : classify setting.hoisted.catalog setting.hoisted.registry _ = _ := classified
    obtain ⟨value, again, here⟩ := (outline?_scalar classifiedToo).mp settled.outlined
    cases read.symm.trans again
    cases here.symm.trans widened
    exact fragment (.of_scalar built classified read) widened
  | array inner widened ih =>
    obtain ⟨items, outlined, here⟩ := outline?_array.mp settled.outlined
    have settledToo : setting.hoisted.Settled (· ∈ Record.names table) _ items := ⟨outlined, settled.listed⟩
    exact array (ih settledToo) here widened
  | @named name required nullable _ _ body other shows kind classified shown inner widened ih =>
    obtain ⟨definition, rfl, rfl, shown⟩ := shown
    have classifiedToo : classify setting.hoisted.catalog setting.hoisted.registry _ = _ := classified
    have here := (outline?_named kind rfl classifiedToo).mp settled.outlined
    have listed := settled.listed definition ⟨_, classifiedToo⟩ kind
    obtain ⟨stand, member, resolved⟩ := Table.exists_body? listed setting.dialect.base
    obtain ⟨again, held, same, -, shownToo⟩ := stored _ member
    cases built.eq_of_name (mem_of_classify_eq classified) held (congrArg Name.text same.symm)
    have own : setting.ShowsBody setting.Inlines definition body := shown.imp fun spec schema _ => inner spec schema
    refine named ⟨_, classified⟩ kind resolved own (fun related references choices => ?_) here widened
    apply shownToo.pairs kind rfl shown
    · intro next one two mentions settledToo shownHere
      exact references next one two mentions settledToo (ih next two shownHere settledToo)
    · exact fun nullable values => choices nullable (Value.texts values)

/-- Given enough depth, the schema that hoisting has for a reference unfolds to the one written out. -/
theorem Inlines.unfolds (built : setting.catalog.OfDefinitions) (catalogFree : setting.catalog.IsReferenceFree)
    (registryFree : setting.registry.IsReferenceFree) (catalogNullFree : setting.catalog.IsNullFree)
    (registryNullFree : setting.registry.IsNullFree)
    (stored : ∀ entry ∈ table, setting.hoisted.Stores (· ∈ Record.names table) entry.1 entry.2) {spec : TypeSpec}
    {schema other : Schema} (inlines : setting.Inlines spec other)
    (settled : setting.hoisted.Settled (· ∈ Record.names table) spec schema) :
    ∀ᶠ depth in Filter.atTop,
      schema.UnfoldsTo (table.resolved? setting.dialect depth) setting.dialect.flagged other := by
  refine inlines.induction_beside built stored (motive := fun _ schema other => ∀ᶠ depth in Filter.atTop,
    schema.UnfoldsTo (table.resolved? setting.dialect depth) setting.dialect.flagged other) ?_ ?_ ?_ settled
  · intro name value required nullable schema supplies widened
    have free := hasKey_of_supplies catalogFree registryFree supplies
    have sound : schema.Sound setting.dialect.base fun _ => False :=
      setting.widened_sound (Schema.sound_ofValue free) widened
    exact .of_forall fun depth => sound.unfoldsTo
  · intro element required nullable items itemsToo schema other inner here there
    filter_upwards [inner] with depth own
    exact Schema.unfoldsTo_array own here there
  · intro name required nullable definition stand body schema other denotes kind resolved shown pairs here there
    have pairs : Schema.Pairs (fun one two => ∀ᶠ depth in Filter.atTop,
        one.UnfoldsTo (table.resolved? setting.dialect depth) setting.dialect.flagged two ∧
          (setting.dialect.flagged = false → one.toValue ≠ Schema.null.toValue)) stand body := by
      apply pairs
      · intro next one two mentions settled inner
        filter_upwards [inner] with depth own
        exact ⟨own, settled.ne_null built catalogNullFree registryNullFree⟩
      · intro nullable values schema done
        have sound : schema.Sound setting.dialect.base fun _ => False := setting.widened_sound Schema.sound_choice done
        have apart : (Schema.choice values).toValue ≠ Schema.null.toValue :=
          Schema.ne_null_of_find? (show Record.find? _ "enum" = some _ from rfl) (by simp)
        exact .of_forall fun depth => ⟨sound.unfoldsTo, fun unflagged => widened_ne_null unflagged apart done⟩
    have unfolds : ∀ᶠ depth in Filter.atTop, table.unfolded? setting.dialect depth stand.toValue = some body.toValue := by
      apply Table.eventually_unfolded?
      filter_upwards [pairs.eventually] with depth all
      exact all.unfolds.unfolded?
    obtain ⟨parts, rfl, typed⟩ := pairs.typed
    filter_upwards [unfolds] with depth own
    refine Schema.unfoldsTo_reference here typed there ?_
    rw [Table.resolved?, resolved, Option.bind_some, own]

private theorem mapM_of_forall₂ {step : α → Option β} {items : List α} {values : List β}
    (all : List.Forall₂ (fun item value => step item = some value) items values) : items.mapM step = some values := by
  induction all with
  | nil => rfl
  | cons own _ ih => simp [List.mapM_cons, own, ih]

/-- Given enough depth, the answer of a hoisting call unfolds to the one with all types written out. -/
theorem Answers.unfolds {stands standsToo : Entry → Schema → Prop} {value : Value} {compiled hoisted : Compiled}
    (built : setting.catalog.OfDefinitions) (written : setting.Answers setting.Inlines stands (.written value) compiled)
    (answers : setting.hoisted.Answers (setting.hoisted.Settled (· ∈ Record.names table)) standsToo (.written value) hoisted)
    (unfolds : ∀ spec schema other, setting.Inlines spec other →
      setting.hoisted.Settled (· ∈ Record.names table) spec schema → ∀ᶠ depth in Filter.atTop,
        schema.UnfoldsTo (table.resolved? setting.dialect depth) setting.dialect.flagged other) :
    ∀ᶠ depth in Filter.atTop, hoisted.unfolded? table setting.dialect depth = some compiled.toValue := by
  have single (spec : TypeSpec) (schema other : Schema) (inlines : setting.Inlines spec other)
      (settled : setting.hoisted.Settled (· ∈ Record.names table) spec schema) :
      ∀ᶠ depth in Filter.atTop, table.unfolded? setting.dialect depth schema.toValue = some other.toValue := by
    apply Table.eventually_unfolded?
    filter_upwards [unfolds spec schema other inlines settled] with depth own
    exact own none none _ _ rfl rfl
  cases written with
  | reference read inlines =>
    cases answers with
    | reference again settled =>
      cases read.symm.trans again
      exact single _ _ _ inlines settled
    | input again classified =>
      cases read.symm.trans again
      exact absurd classified (WritesOut.noInput inlines)
  | @input _ name required entry records read classified shown =>
    cases answers with
    | reference again settled =>
      cases read.symm.trans again
      obtain ⟨found, other, noInput⟩ := classified_of_outline settled.outlined
      exact absurd (Except.ok.inj (other.symm.trans classified)) (noInput _)
    | @input _ _ _ _ recordsToo again classifiedToo shownToo =>
      cases read.symm.trans again
      cases classified.symm.trans classifiedToo
      obtain ⟨label, parameters, rfl⟩ := built.input classified
      have all : List.Forall₂ (fun (record : ParameterRecord Schema) (value : Value) => ∀ᶠ depth in Filter.atTop,
          (table.unfolded? setting.dialect depth record.schema.toValue).map
            (fun schema => ParameterRecord.toValue id { record with schema }) = some value)
          recordsToo (records.map (ParameterRecord.toValue Schema.toValue)) := by
        rw [List.forall₂_map_right_iff]
        apply forall₂_join shownToo shown
        intro parameter _ one other here there
        obtain ⟨location, spec, schema, parameterRead, settled, rfl⟩ := here
        obtain ⟨_, _, schemaToo, parameterAgain, inlines, rfl⟩ := there
        cases parameterRead.symm.trans parameterAgain
        filter_upwards [single spec schema schemaToo inlines settled] with depth own
        simp only [ParameterRecord.of, own]
        rfl
      filter_upwards [eventually_forall₂ all] with depth own
      rw [Compiled.unfolded?, mapM_of_forall₂ own]
      rfl

end Setting

theorem Mode.union_refSchema_isHoisting (mode : Mode) : (mode.union .refSchema).isHoisting = true := by
  have set : Nat.testBit 4 2 = true := rfl
  simp [isHoisting, union, refSchema, Nat.testBit_or, set]

namespace Compiler

theorem dialect_union_refSchema (compiler : Compiler) (mode : Mode) :
    compiler.dialect (mode.union .refSchema) = compiler.dialect mode := by
  have openApi : (mode.union .refSchema).isOpenApi = mode.isOpenApi := by
    have unset : Nat.testBit 4 1 = false := rfl
    simp [Mode.isOpenApi, Mode.union, Mode.refSchema, Nat.testBit_or, unset]
  have openApi31 : (mode.union .refSchema).isOpenApi31 = mode.isOpenApi31 := by
    have unset : Nat.testBit 4 3 = false := rfl
    simp [Mode.isOpenApi31, Mode.union, Mode.refSchema, Nat.testBit_or, unset]
  simp only [Compiler.dialect, Dialect.of, Mode.isFlagged, openApi, openApi31]

theorem setting_union_refSchema (compiler : Compiler) (mode : Mode) :
    compiler.hoisting (compiler.dialect (mode.union .refSchema)) = (compiler.setting mode).hoisted := by
  rw [dialect_union_refSchema]
  rfl

section Calls

variable {catalog : Catalog} {registry : Registry} {own mode : Mode} {base? : Option String} {value : Value}

variable (registry own base? value) in
private theorem follows_hoisting (built : catalog.OfDefinitions) (inline : mode.isHoisting = false) :
    Walk.Follows ((new catalog registry own base?).setting mode).Mirrors (fun _ _ => True)
      ((Compiled.ofReferent ((new catalog registry own base?).setting mode) (.written value)).run
        ((new catalog registry own base?).start (.written value) mode))
      ((Compiled.ofReferent ((new catalog registry own base?).setting (mode.union .refSchema)) (.written value)).run
        ((new catalog registry own base?).start (.written value) (mode.union .refSchema))) := by
  generalize made : new catalog registry own base? = compiler
  have setting : compiler.setting (mode.union .refSchema) = (compiler.setting mode).hoisted := by
    rw [setting_eq_hoisting mode.union_refSchema_isHoisting, setting_union_refSchema]
  rw [setting]
  subst made
  exact Setting.leads_ofReferent inline built value _ _ ⟨nofun, fun _ => .none, nofun⟩

/-- What can be written out can be hoisted: both answers are known, and so is the table. -/
theorem compile_both (built : catalog.OfDefinitions) (inline : mode.isHoisting = false) {compiled : Compiled}
    (answered : ((new catalog registry own base?).compile (.written value) mode).outcome = .ok compiled) :
    let setting := (new catalog registry own base?).setting mode
    let call := (new catalog registry own base?).compile (.written value) (mode.union .refSchema)
    ∃ hoisted table standsWritten standsHoisted, call.outcome = .ok hoisted ∧
      call.compiler.schemasFor (mode.union .refSchema) = table ∧
      (∀ entry ∈ table, setting.hoisted.Stores (· ∈ Record.names table) entry.1 entry.2) ∧
      setting.Answers setting.Inlines standsWritten (.written value) compiled ∧
      setting.hoisted.Answers (setting.hoisted.Settled (· ∈ Record.names table)) standsHoisted (.written value) hoisted := by
  intro setting call
  obtain ⟨progress, run, -⟩ := compile_ok answered
  obtain ⟨hoisted, succeeds⟩ : ∃ hoisted, call.outcome = .ok hoisted := by
    have follows := follows_hoisting registry own base? value built inline
    rw [run] at follows
    simp only [call, compile_eq]
    generalize (Compiled.ofReferent _ (.written value)).run _ = there at follows ⊢
    cases follows with
    | ok => exact ⟨_, rfl⟩
  have held : ∀ entry, Referent.written value = .entry entry → entry ∈ catalog.toList := nofun
  obtain ⟨table, same, stored, -, answers⟩ :=
    compile_settles (new_tracks built registry own base?) mode.union_refSchema_isHoisting held succeeds
  rw [setting_union_refSchema] at stored answers
  obtain ⟨-, -, written⟩ := (setting.inlining inline built).ensures_ofReferent (.written value) (fun _ _ => trivial) _ _ _
    (fun _ member => (List.not_mem_nil member).elim) run
  have schemas : call.compiler.schemasFor (mode.union .refSchema) = table := by
    rw [show call.compiler = _ from same]
    exact table_setTable_self ..
  exact ⟨hoisted, table, _, _, succeeds, schemas, stored, written, answers⟩

end Calls

/-- Without hoisting every type is written out where it occurs; hoisting then fails in the same way, unless
it is recursion that is complained of, and otherwise answers what unfolds to the same. -/
theorem hoisting_unfolds_to_inline (catalog : Catalog) (registry : Registry) (own mode : Mode) (base? : Option String)
    (value : Value) (built : catalog.OfDefinitions) (catalogFree : catalog.IsReferenceFree)
    (registryFree : registry.IsReferenceFree) (catalogNullFree : catalog.IsNullFree)
    (registryNullFree : registry.IsNullFree) (inline : mode.isHoisting = false) :
    let compiler := new catalog registry own base?
    let outcome := (compiler.compile (.written value) mode).outcome
    let call := compiler.compile (.written value) (mode.union .refSchema)
    (∀ error, outcome = .error error → (∀ chain, error ≠ .unterminatedRecursion chain) → call.outcome = .error error) ∧
    ∀ compiled, outcome = .ok compiled → ∃ hoisted, call.outcome = .ok hoisted ∧ ∃ depth, ∀ more ≥ depth,
      hoisted.unfolded? (call.compiler.schemasFor (mode.union .refSchema)) (compiler.dialect (mode.union .refSchema)) more =
        some compiled.toValue := by
  intro compiler outcome call
  refine ⟨fun error failed other => ?_, fun compiled answered => ?_⟩
  · obtain ⟨progress, run⟩ := run_of_compile_error failed
    have follows := follows_hoisting registry own base? value built inline
    rw [run] at follows
    simp only [call, compile_eq]
    generalize (Compiled.ofReferent _ (.written value)).run _ = there at follows ⊢
    cases follows with
    | error => rfl
    | endless => exact absurd rfl (other _)
  · obtain ⟨hoisted, table, _, _, succeeds, schemas, stored, written, answers⟩ := compile_both built inline answered
    have unfolds := written.unfolds built answers fun spec schema other inlines settled =>
      inlines.unfolds built catalogFree registryFree catalogNullFree registryNullFree stored settled
    rw [schemas, dialect_union_refSchema]
    exact ⟨hoisted, succeeds, Filter.eventually_atTop.mp unfolds⟩

/-- A field with a title of its own that may be null, and the same type again in an array. -/
theorem hoisting_unfolds_to_inline_of_order :
    let color : Definition := .sum "Color" ["red"]
    let order : Definition := .product "Order"
      [⟨"hue", .text "color?", some "Hue", none, none⟩, ⟨"others", .text "[color]", none, none, none⟩]
      none none "application/json"
    let catalog : Catalog :=
      ⟨[("color", .checked color), ("order", .checked order)], [(.text "Color", "color"), (.text "Order", "order")]⟩
    let compiler := new catalog .builtins .jsonSchema none
    let hoisting := Mode.jsonSchema.union .refSchema
    let call := compiler.compile (.written (.text "order")) hoisting
    catalog.OfDefinitions ∧ catalog.IsReferenceFree ∧ Registry.builtins.IsReferenceFree ∧ catalog.IsNullFree ∧
      Registry.builtins.IsNullFree ∧ Mode.jsonSchema.isHoisting = false ∧
      ∃ compiled hoisted, (compiler.compile (.written (.text "order")) .jsonSchema).outcome = .ok compiled ∧
        call.outcome = .ok hoisted ∧ ∃ depth, ∀ more ≥ depth,
          hoisted.unfolded? (call.compiler.schemasFor hoisting) (compiler.dialect hoisting) more = some compiled.toValue := by
  intro color order catalog compiler hoisting call
  have built : catalog.OfDefinitions :=
    Catalog.OfDefinitions.empty.register_all [("color", color), ("order", order)] rfl
  have free : catalog.IsReferenceFree := by
    intro entry held
    have known : entry = .checked color ∨ entry = .checked order := by simpa [Catalog.toList, catalog] using held
    rcases known with rfl | rfl <;> trivial
  have nullFree : catalog.IsNullFree := by
    intro name fragment held
    simp [Catalog.toList, catalog, color, order] at held
  have succeeds : (compiler.compile (.written (.text "order")) .jsonSchema).outcome.toOption.isSome = true := by
    decide +kernel
  obtain ⟨compiled, answered⟩ := Option.isSome_iff_exists.mp succeeds
  have answered := toOption_eq_some.mp answered
  obtain ⟨hoisted, called, unfolds⟩ := (hoisting_unfolds_to_inline catalog .builtins .jsonSchema .jsonSchema none
    (.text "order") built free Registry.builtins_isReferenceFree nullFree Registry.builtins_isNullFree rfl).2
      compiled answered
  exact ⟨built, free, Registry.builtins_isReferenceFree, nullFree, Registry.builtins_isNullFree, rfl, compiled, hoisted,
    answered, called, unfolds⟩

end Compiler

end Schemata
