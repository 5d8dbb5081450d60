import Schemata.Proofs.ClosedProperties

/-! Properties that every step of a compilation maintains, where what holds of a reference may depend on which
names can be referred to. Hand-written objects take part. A body that is stored does not only have the property:
it is kept for which type it was written, and that it was put together from schemas with the property. -/

namespace Schemata

/-- A property of the schemas of a dialect, given the names that may be referred to, with the types and the
fragments that it can be maintained for. -/
structure Upkeep where
  property : Dialect → (String → Prop) → Schema → Prop
  fits : Entry → Prop
  takes : Value → Prop
  imp {dialect : Dialect} {known other : String → Prop} {schema : Schema} :
    property dialect known schema → (∀ name, known name → other name) → property dialect other schema
  reference {dialect : Dialect} {known : String → Prop} {name : String} :
    known name → property dialect known (.reference dialect.base name)
  array {dialect : Dialect} {known : String → Prop} {items : Schema} :
    property dialect known items → property dialect known (.array items)
  nullable {dialect : Dialect} {known : String → Prop} {schema changed : Schema} :
    property dialect known schema → schema.nullable? dialect.flagged = .ok changed → property dialect known changed
  primitive {dialect : Dialect} {known : String → Prop} {fragment : Value} :
    takes fragment → property dialect known (.ofValue fragment)
  scalar {dialect : Dialect} {known : String → Prop} {entry : Entry} {fragment : Value} :
    fits entry → entry.kind? = some .scalar → entry.fragment = .ok fragment → property dialect known (.ofValue fragment)
  body {setting : Setting} {known : String → Prop} {kind : Kind} {entry : Entry} {body : Schema} : fits entry →
    setting.ShowsEntry (fun _ => property setting.dialect known) kind entry body → property setting.dialect known body

namespace Upkeep

/-- A property that is closed under all that is done to schemas is maintained for the types that give it. -/
def ofClosed (property : Dialect → (String → Prop) → Schema → Prop)
    (closed : ∀ (setting : Setting) known, setting.Closed (property setting.dialect known))
    (imp : ∀ dialect known other schema, property dialect known schema → (∀ name, known name → other name) →
      property dialect other schema)
    (reference : ∀ (dialect : Dialect) known name, known name → property dialect known (.reference dialect.base name)) :
    Upkeep where
  property
  fits entry := ∀ dialect known, entry.Gives (property dialect known)
  takes fragment := ∀ dialect known, property dialect known (.ofValue fragment)
  imp := imp _ _ _ _
  reference := reference _ _ _
  array {dialect known _} := (closed ⟨.empty, .builtins, dialect, false⟩ known).array
  nullable {dialect known schema changed} own done :=
    (closed ⟨.empty, .builtins, dialect, false⟩ known).widened own (show Setting.widened _ true schema = .ok changed from done)
  primitive gives := gives _ _
  scalar gives scalar read := (gives _ _).fragment scalar read
  body gives shown := shown.keeps (closed _ _) (gives _ _) fun _ _ => id

variable (upkeep : Upkeep)

/-- A body under a name is that of a type with the name, put together from schemas with the property. -/
def Stores (dialect : Dialect) (known : String → Prop) (name : String) (body : Schema) : Prop :=
  ∃ (setting : Setting) (kind : Kind) (entry : Entry), setting.dialect = dialect ∧ upkeep.fits entry ∧
    entry.kind? = some kind ∧ entry.name = .text name ∧
    setting.ShowsEntry (fun _ => upkeep.property dialect known) kind entry body

variable {upkeep}

theorem Stores.imp {dialect : Dialect} {known other : String → Prop} {name : String} {body : Schema}
    (stores : upkeep.Stores dialect known name body) (implies : ∀ name, known name → other name) :
    upkeep.Stores dialect other name body := by
  obtain ⟨setting, kind, entry, same, fits, typed, named, shown⟩ := stores
  exact ⟨setting, kind, entry, same, fits, typed, named, shown.weaken fun _ _ own => upkeep.imp own implies⟩

theorem Stores.property {dialect : Dialect} {known : String → Prop} {name : String} {body : Schema}
    (stores : upkeep.Stores dialect known name body) : upkeep.property dialect known body := by
  obtain ⟨setting, kind, entry, rfl, fits, -, -, shown⟩ := stores
  exact upkeep.body fits shown

theorem widened {setting : Setting} {known : String → Prop} {nullable : Bool} {schema changed : Schema}
    (own : upkeep.property setting.dialect known schema) (done : setting.widened nullable schema = .ok changed) :
    upkeep.property setting.dialect known changed := by
  cases nullable with
  | true => exact upkeep.nullable own done
  | false => cases done; exact own

/-- What has been written so far has the property. A table that is only looked at is left alone. -/
structure Maintains (upkeep : Upkeep) (setting : Setting) (chain : List Name) (progress : Progress) : Prop where
  known : ∀ entry ∈ progress.known, upkeep.property setting.dialect (setting.MayRefer chain progress) entry.2
  table : setting.hoisting = true →
    ∀ entry ∈ progress.table, upkeep.Stores setting.dialect (setting.MayRefer chain progress) entry.1 entry.2

def maintaining (upkeep : Upkeep) (setting : Setting) (catalog : ∀ entry ∈ setting.catalog.toList, upkeep.fits entry)
    (registry : ∀ name fragment, (name, fragment) ∈ setting.registry.fragments → upkeep.takes fragment) :
    Discipline setting where
  rules chain :=
    { invariant := upkeep.Maintains setting chain
      growth := fun before after => Record.names before.table ⊆ Record.names after.table
      refl := fun _ => List.Subset.refl _
      trans := List.Subset.trans }
  admits _ _ := True
  enters _ kind entry := upkeep.fits entry ∧ entry.kind? = some kind
  shows chain _ schema progress := upkeep.property setting.dialect (setting.MayRefer chain progress) schema
  stands chain _ _ schema progress := upkeep.property setting.dialect (setting.MayRefer chain progress) schema
  stable _ _ _ _ _ grown own := upkeep.imp own (Setting.MayRefer.grow fun _ member => grown member)
  silent _ maintains := ⟨⟨maintains.known, maintains.table⟩, fun _ => id⟩
  recalled maintains _ found := maintains.known _ (Record.mem_of_lookup found)
  remember maintains _ own := ⟨⟨List.forall_mem_cons.mpr ⟨own, maintains.known⟩, maintains.table⟩, fun _ => id⟩
  element _ := trivial
  array own := widened (upkeep.array own)
  primitive classified :=
    widened (upkeep.primitive (registry _ _ (Registry.mem_of_get? (classify_primitive.mp classified))))
  scalar classified read :=
    widened (upkeep.scalar (catalog _ (mem_of_classify_eq classified)) (classify_entry.mp classified).2.2 read)
  named _ _ own := own
  entered _ classified := ⟨catalog _ (mem_of_classify_eq classified), (classify_entry.mp classified).2.2⟩
  mentioned _ _ _ _ _ := trivial
  asked _ _ := trivial
  enter maintains := ⟨fun held member => upkeep.imp (maintains.known held member) Setting.MayRefer.enter,
    fun hoisting held member => (maintains.table hoisting held member).imp Setting.MayRefer.enter⟩
  inlined inline _ entered _ _ inner grown shown done := by
    refine ⟨⟨fun held member => upkeep.imp (inner.known held member) (Setting.MayRefer.leave_inline inline),
      by simp [inline]⟩, grown, ?_⟩
    exact widened (upkeep.imp (upkeep.body entered.1 shown) (Setting.MayRefer.leave_inline inline)) done
  referred hoisting _ _ named listed := widened (upkeep.reference ⟨hoisting, named ▸ listed⟩)
  hoisted {_ kind entry _ _ name body} hoisting _ entered named absent fresh _ inner grown shown := by
    refine ⟨⟨fun held member => upkeep.imp (inner.known held member) (Setting.MayRefer.leave named),
      fun _ held member => ?_⟩, fun other listed => Record.mem_names_set (grown listed) name body⟩
    rcases Record.mem_set member with rfl | old
    · refine ⟨setting, kind, entry, rfl, entered.1, entered.2, named, shown.weaken fun _ _ own => ?_⟩
      exact upkeep.imp own (Setting.MayRefer.leave named)
    · exact (inner.table hoisting held old).imp (Setting.MayRefer.leave named)

end Upkeep

def Action.Brings (entry : Entry) : Action → Prop
  | .compile given _ | .compileParameters given _ => given = .entry entry
  | .registerType _ other => other = entry
  | .registerPrimitive .. => False

/-- A type that a compiler has met: one of the catalog it was made with, or one that an action brought. -/
def Compiler.Meets (catalog : Catalog) (history : List Action) (entry : Entry) : Prop :=
  entry ∈ catalog.toList ∨ ∃ action ∈ history, action.Brings entry

theorem Compiler.Meets.append {catalog : Catalog} {history : List Action} {entry : Entry}
    (meets : Meets catalog history entry) (more : List Action) : Meets catalog (history ++ more) entry := by
  refine meets.imp_right fun brought => ?_
  obtain ⟨action, listed, brings⟩ := brought
  exact ⟨action, List.mem_append_left _ listed, brings⟩

def Compiler.Learns (registry : Registry) (history : List Action) (fragment : Value) : Prop :=
  ∃ name, (name, fragment) ∈ registry.fragments ∨ .registerPrimitive name fragment ∈ history

theorem Compiler.Learns.append {registry : Registry} {history : List Action} {fragment : Value}
    (learns : Learns registry history fragment) (more : List Action) : Learns registry (history ++ more) fragment := by
  obtain ⟨name, known⟩ := learns
  exact ⟨name, known.imp_right (List.mem_append_left _)⟩

namespace Upkeep

variable (upkeep : Upkeep)

/-- What is given fits. Hand-written objects are refused when they are given themselves. -/
def Accepts : Referent → Prop
  | .entry (.checked definition) => upkeep.fits (.checked definition)
  | .entry (.handwritten _) | .written _ => True

def Allows : Action → Prop
  | .compile given _ | .compileParameters given _ => upkeep.Accepts given
  | .registerType _ entry => upkeep.fits entry
  | .registerPrimitive _ fragment => upkeep.takes fragment

variable {upkeep}

theorem Allows.accepts {action : Action} {given : Referent} {mode : Mode} (allows : upkeep.Allows action)
    (call : action.call? = some (given, mode)) : upkeep.Accepts given := by
  cases action with
  | compile | compileParameters => cases call; exact allows
  | registerType | registerPrimitive => cases call

theorem allows_of_brings {action : Action} (types : ∀ entry, action.Brings entry → upkeep.fits entry)
    (primitives : ∀ name fragment, action = .registerPrimitive name fragment → upkeep.takes fragment) :
    upkeep.Allows action := by
  cases action with
  | compile given mode | compileParameters given mode =>
    cases given with
    | written => trivial
    | entry entry =>
      cases entry with
      | handwritten => trivial
      | checked definition => exact types _ rfl
  | registerType identifier entry => exact types entry rfl
  | registerPrimitive name fragment => exact primitives name fragment rfl

theorem ofClosed_allows {property : Dialect → (String → Prop) → Schema → Prop}
    {closed : ∀ (setting : Setting) known, setting.Closed (property setting.dialect known)}
    {imp : ∀ dialect known other schema, property dialect known schema → (∀ name, known name → other name) →
      property dialect other schema}
    {reference : ∀ (dialect : Dialect) known name, known name → property dialect known (.reference dialect.base name)}
    {action : Action} (gives : ∀ dialect known, action.Gives (property dialect known)) :
    (ofClosed property closed imp reference).Allows action := by
  cases action with
  | compile given | compileParameters given =>
    cases given with
    | written => trivial
    | entry entry =>
      cases entry with
      | handwritten => trivial
      | checked => exact gives
  | registerType | registerPrimitive => exact gives

end Upkeep

namespace Compiler

variable {compiler : Compiler} {upkeep : Upkeep} {given : Referent} {mode : Mode}

/-- Every table stores types with references to its own names, and all that was given fits. -/
structure Upholds (compiler : Compiler) (upkeep : Upkeep) : Prop where
  catalog : ∀ entry ∈ compiler.catalog.toList, upkeep.fits entry
  registry : ∀ name fragment, (name, fragment) ∈ compiler.registry.fragments → upkeep.takes fragment
  tables : ∀ dialect, ∀ entry ∈ compiler.table dialect,
    upkeep.Stores dialect (· ∈ Record.names (compiler.table dialect)) entry.1 entry.2

/-- A call keeps that up. Its answer has the property, with references to the table that the call leaves. -/
theorem Upholds.compile {compiled : Compiled} (upholds : compiler.Upholds upkeep) (accepts : upkeep.Accepts given)
    (answered : (compiler.compile given mode).outcome = .ok compiled) :
    (compiler.compile given mode).compiler.Upholds upkeep ∧
      ∀ schema ∈ compiled.schemas, upkeep.property (compiler.dialect mode) (fun name => mode.isHoisting = true ∧
        name ∈ Record.names ((compiler.compile given mode).compiler.table (compiler.dialect mode))) schema := by
  obtain ⟨others, -, unhoisted⟩ := compile_appends answered
  obtain ⟨progress, run, same⟩ := compile_ok answered
  have begins : upkeep.Maintains (compiler.setting mode) [] (compiler.start given mode) :=
    ⟨nofun, fun hoisting entry member =>
      (upholds.tables _ entry member).imp fun name listed => ⟨hoisting, .inl listed⟩⟩
  obtain ⟨kept, -, answers⟩ :=
    (upkeep.maintaining (compiler.setting mode) upholds.catalog upholds.registry).ensures_ofReferent given
      (Discipline.receives_of_admits _ (fun _ => trivial) fun definition same => by
        cases same
        exact ⟨accepts, rfl⟩)
      _ _ _ begins run
  rw [same] at others unhoisted ⊢
  refine ⟨⟨upholds.catalog, upholds.registry, fun dialect => ?_⟩, ?_⟩
  · by_cases own : dialect = compiler.dialect mode
    · cases own
      cases hoisting : mode.isHoisting with
      | true =>
        rw [table_setTable_self]
        exact fun entry member => (kept.table hoisting entry member).imp fun name refers => refers.settled.2
      | false =>
        rw [unhoisted hoisting]
        exact upholds.tables _
    · rw [others dialect own]
      exact upholds.tables dialect
  · rw [table_setTable_self]
    refine answers.keeps (fun name record same => ?_) (fun _ _ own => upkeep.imp own Setting.MayRefer.settled)
      fun _ _ own => upkeep.imp own Setting.MayRefer.settled
    cases same
    rw [← Schema.ofValue_record]
    exact upkeep.scalar accepts rfl rfl

theorem Upholds.act (upholds : compiler.Upholds upkeep) {action : Action} (allows : upkeep.Allows action) :
    (compiler.act action).Upholds upkeep := by
  obtain ⟨entries, fragments⟩ := compiler.act_given action
  refine ⟨fun entry held => ?_, fun name fragment member => ?_, ?_⟩
  · rcases entries entry held with old | ⟨identifier, rfl⟩
    · exact upholds.catalog entry old
    · exact allows
  · rcases fragments name fragment member with old | rfl
    · exact upholds.registry name fragment old
    · exact allows
  · have taken := compiler.step action
    generalize compiler.act action = after at taken ⊢
    generalize compiler.answer action = answer at taken
    cases taken with
    | failed | refused | registered | primitive => exact upholds.tables
    | answered call succeeded => exact (upholds.compile (allows.accepts call) succeeded).1.tables

theorem Upholds.after (upholds : compiler.Upholds upkeep) {actions : List Action}
    (allows : ∀ action ∈ actions, upkeep.Allows action) : (compiler.after actions).Upholds upkeep :=
  after_induction (fun other action member (kept : other.Upholds upkeep) => kept.act (allows action member)) upholds

theorem after_upholds {catalog : Catalog} {registry : Registry} {history : List Action}
    (types : ∀ entry, Meets catalog history entry → upkeep.fits entry)
    (primitives : ∀ fragment, Learns registry history fragment → upkeep.takes fragment) (mode : Mode)
    (base? : Option String) : ((new catalog registry mode base?).after history).Upholds upkeep := by
  have begins : (new catalog registry mode base?).Upholds upkeep :=
    ⟨fun entry held => types entry (.inl held), fun name fragment member => primitives fragment ⟨name, .inl member⟩,
      by simp [new, Compiler.table]⟩
  apply begins.after
  intro action member
  apply Upkeep.allows_of_brings
  · exact fun entry brings => types entry (.inr ⟨action, member, brings⟩)
  · exact fun name fragment same => primitives fragment ⟨name, .inr (same ▸ member)⟩

/-- What a call in a session answers has the property, with references to the table that the call leaves. -/
theorem answers_uphold {catalog : Catalog} {registry : Registry} {earlier : List Action} {action : Action}
    (types : ∀ entry, Meets catalog (earlier ++ [action]) entry → upkeep.fits entry)
    (primitives : ∀ fragment, Learns registry (earlier ++ [action]) fragment → upkeep.takes fragment) {mode called : Mode}
    {base? : Option String} {given : Referent} {compiled : Compiled} (call : action.call? = some (given, called))
    (answered : ((new catalog registry mode base?).after earlier).answer action = .call (.ok compiled)) :
    let compiler := (new catalog registry mode base?).after earlier
    ∀ schema ∈ compiled.schemas, upkeep.property (compiler.dialect called) (fun name => called.isHoisting = true ∧
      name ∈ Record.names ((compiler.act action).table (compiler.dialect called))) schema := by
  intro compiler
  have upholds : compiler.Upholds upkeep := by
    apply after_upholds
    · exact fun entry meets => types entry (meets.append _)
    · exact fun fragment learns => primitives fragment (learns.append _)
  have allowed : upkeep.Allows action := by
    apply Upkeep.allows_of_brings
    · exact fun entry brings => types entry (.inr ⟨action, List.mem_append_right _ List.mem_cons_self, brings⟩)
    · exact fun name fragment same =>
        primitives fragment ⟨name, .inr (List.mem_append_right _ (same ▸ List.mem_cons_self))⟩
  obtain ⟨succeeded, same⟩ := answered_call call answered
  rw [same]
  exact (upholds.compile (allowed.accepts call) succeeded).2

end Compiler

end Schemata
