import Schemata.Proofs.InlinedTypes
import Schemata.Proofs.Locality
import Schemata.Proofs.SettledReferences

/-! References that admit null. Such a reference compiles as the plain one does, and the schema of the plain one is
widened at the end; on the way nothing else is seen of it. What is widened is an array, a fragment that was taken
over, the body of a type, or a reference to one. -/

namespace Schemata

/-- The second reference is the first one with null admitted. The mark of a field makes no difference. -/
inductive TypeSpec.Widens : TypeSpec → TypeSpec → Prop where
  | named (name : String) (required requiredToo : Bool) :
      Widens (.named name required false) (.named name requiredToo true)
  | array (element : TypeSpec) (required requiredToo : Bool) :
      Widens (.array element required false) (.array element requiredToo true)

namespace Setting

variable {setting : Setting} {chain : List Name}

def andNull (setting : Setting) (walk : Walk Schema) : Walk Schema :=
  walk >>= fun schema => .ofAccess (schema.nullable? setting.dialect.flagged)

private theorem bind_andNull (walk : Walk α) (next : α → Walk Schema) :
    setting.andNull (walk >>= next) = walk >>= fun value => setting.andNull (next value) := by
  rw [andNull, bind_assoc]
  rfl

theorem occurrence_andNull (entry : Entry) (body : entry.name ∉ chain → Walk Schema) :
    setting.occurrence chain entry true body = setting.andNull (setting.occurrence chain entry false body) := by
  cases hoists : setting.hoisting with
  | true =>
    cases named : entry.name with
    | text name =>
      rw [occurrence_hoisting hoists named, occurrence_hoisting hoists named, bind_andNull]
      rfl
    | other key shown =>
      rw [occurrence_unsuitable hoists named, occurrence_unsuitable hoists named]
      split
      · rfl
      · rw [bind_andNull]
        rfl
  | false =>
    rw [occurrence_inline hoists, occurrence_inline hoists]
    split
    · rfl
    · rw [bind_andNull]
      rfl

def unremembered (setting : Setting) (chain : List Name) : TypeSpec → Walk Schema
  | .named name required nullable => compileName setting chain name required nullable
  | .array element _ nullable =>
    compileSpec setting chain element >>= fun items => .ofAccess (setting.widened nullable (.array items))

theorem compileSpec_eq (spec : TypeSpec) :
    compileSpec setting chain spec = Walk.memoized spec (setting.unremembered chain spec) := by
  cases spec with
  | named => rfl
  | array => simp only [unremembered, ← widen_eq]; rfl

/-- An input type cannot stand where a type is expected, and is reported with its marks. -/
def NoInput (setting : Setting) (spec : TypeSpec) : Prop :=
  ∀ name entry, spec.name? = some name → classify setting.catalog setting.registry name ≠ .ok (.entry .input entry)

theorem unremembered_andNull {plain spec : TypeSpec} (widens : plain.Widens spec) (noInput : setting.NoInput plain) :
    setting.unremembered chain spec = setting.andNull (setting.unremembered chain plain) := by
  cases widens with
  | array element required requiredToo =>
    rw [unremembered, unremembered, bind_andNull]
    rfl
  | named name required requiredToo =>
    rw [unremembered, unremembered]
    cases denotation setting.catalog setting.registry name with
    | nothing classified =>
      rw [compileName_error classified, compileName_error classified]
      rfl
    | primitive classified =>
      rw [compileName_primitive classified, compileName_primitive classified]
      rfl
    | input classified => exact absurd classified (noInput name _ rfl)
    | scalar classified =>
      rw [compileName_scalar classified, compileName_scalar classified, bind_andNull]
      rfl
    | type named classified =>
      rw [compileName_named named classified, compileName_named named classified]
      exact occurrence_andNull _ _

private theorem run_memoized {spec : TypeSpec} {walk : Walk Schema} {before : Progress} (fresh : before.known = []) :
    (Walk.memoized spec walk).run before =
      match walk.run before with
      | .ok schema after => .ok schema { after with known := (spec.optional, schema) :: after.known }
      | .error error after => .error error after := by
  unfold Walk.memoized
  rw [EStateM.run_bind, EStateM.run_get]
  simp only [fresh, List.lookup_nil]
  rw [EStateM.run_bind]
  cases walk.run before <;> rfl

/-- Where nothing is remembered, a reference that admits null yields what the plain one yields, widened. -/
theorem compileSpec_widened {plain spec : TypeSpec} (widens : plain.Widens spec) (noInput : setting.NoInput plain)
    {schema : Schema} {before after : Progress} (fresh : before.known = [])
    (run : (compileSpec setting chain plain).run before = .ok schema after) :
    ∃ last, last.table = after.table ∧ (compileSpec setting chain spec).run before =
      match schema.nullable? setting.dialect.flagged with
      | .ok widened => .ok widened last
      | .error fault => .error (.unusable fault) last := by
  rw [compileSpec_eq, run_memoized fresh] at run
  rw [compileSpec_eq, run_memoized fresh, unremembered_andNull widens noInput, andNull, EStateM.run_bind]
  cases ran : (setting.unremembered chain plain).run before with
  | error error failed =>
    rw [ran] at run
    cases run
  | ok value middle =>
    rw [ran] at run
    cases run
    dsimp only
    cases schema.nullable? setting.dialect.flagged with
    | ok widened => exact ⟨{ middle with known := (spec.optional, widened) :: middle.known }, rfl, rfl⟩
    | error fault => exact ⟨middle, rfl, rfl⟩

/-- A call that is answered with one schema is about no input type, and so is one about the same name. -/
theorem ofSpec_single {spec : TypeSpec} {schema : Schema} {before after : Progress}
    (run : (Compiled.ofSpec setting spec).run before = .ok (.single schema) after) :
    setting.NoInput spec ∧ (compileSpec setting [] spec).run before = .ok schema after ∧
      ∀ other : TypeSpec, other.name? = spec.name? →
        Compiled.ofSpec setting other = compileSpec setting [] other >>= fun schema => pure (.single schema) := by
  have single {walk : Walk Schema} (run : (walk >>= fun schema => pure (Compiled.single schema)).run before =
      .ok (.single schema) after) : walk.run before = .ok schema after := by
    obtain ⟨value, middle, ran, last⟩ := Walk.run_bind_ok.mp run
    obtain ⟨same, rfl⟩ := Walk.run_pure_ok.mp last
    cases same
    exact ran
  cases spec with
  | array element required nullable =>
    refine ⟨nofun, single run, fun other same => ?_⟩
    cases other with
    | array => rfl
    | named => cases same
  | named name required nullable =>
    rcases classify_cases setting.catalog setting.registry name with
      ⟨error, classified⟩ | ⟨entry, classified⟩ | ⟨found, classified, noInput⟩
    · rw [Compiled.ofSpec_error classified] at run
      exact (Walk.run_throw_ok run).elim
    · rw [Compiled.ofSpec_input classified] at run
      split at run
      · exact (Walk.run_throw_ok run).elim
      · obtain ⟨records, _, -, last⟩ := Walk.run_bind_ok.mp run
        cases (Walk.run_pure_ok.mp last).1
    · rw [Compiled.ofSpec_named classified noInput] at run
      refine ⟨fun other entry same impossible => ?_, single run, fun other same => ?_⟩
      · cases same
        exact noInput entry (Except.ok.inj (classified.symm.trans impossible))
      · cases other with
        | array => cases same
        | named =>
          cases same
          exact Compiled.ofSpec_named classified noInput

end Setting

namespace Compiler

variable {compiler : Compiler} {mode : Mode} {value other : Value} {plain spec : TypeSpec} {schema : Schema}

private theorem run_widened (read : TypeSpec.read false value = .ok plain) (readToo : TypeSpec.read false other = .ok spec)
    (widens : plain.Widens spec) (answered : (compiler.compile (.written value) mode).outcome = .ok (.single schema)) :
    ∃ last, (compiler.compile (.written value) mode).compiler = compiler.setTable (compiler.dialect mode) last.table ∧
      (Compiled.ofReferent (compiler.setting mode) (.written other)).run (compiler.start (.written other) mode) =
        match schema.nullable? (compiler.dialect mode).flagged with
        | .ok widened => .ok (.single widened) last
        | .error fault => .error (.unusable fault) last := by
  let setting := compiler.setting mode
  obtain ⟨progress, run, same⟩ := compile_ok answered
  rw [Compiled.ofReferent, read] at run
  obtain ⟨noInput, ran, begins⟩ := Setting.ofSpec_single run
  -- the two calls begin with different lines in the log
  have agrees : Walk.Agrees (Walk.Matches Eq) (compileSpec setting [] plain) (compileSpec setting [] plain) :=
    (Setting.Resembles.refl setting).agrees_compileSpec [] fun _ _ => rfl
  have alike := agrees (compiler.start (.written value) mode) (compiler.start (.written other) mode) ⟨rfl, rfl⟩
  rw [ran] at alike
  generalize again : (compileSpec setting [] plain).run (compiler.start (.written other) mode) = there at alike
  cases alike with
  | ok matched =>
    obtain ⟨last, table, wide⟩ := Setting.compileSpec_widened widens noInput rfl again
    refine ⟨last, by rw [same, matched.1, table], ?_⟩
    have sameName : spec.name? = plain.name? := by cases widens <;> rfl
    rw [Compiled.ofReferent, readToo]
    change (Compiled.ofSpec setting spec).run _ = match schema.nullable? setting.dialect.flagged with | .ok _ => _ | .error _ => _
    rw [begins spec sameName, EStateM.run_bind, wide]
    cases schema.nullable? setting.dialect.flagged <;> rfl

/-- A call about a reference that admits null is answered with the widened schema of the plain reference, and leaves the
same tables. -/
theorem compile_widened (read : TypeSpec.read false value = .ok plain) (readToo : TypeSpec.read false other = .ok spec)
    (widens : plain.Widens spec) (answered : (compiler.compile (.written value) mode).outcome = .ok (.single schema))
    {widened : Schema} (done : schema.nullable? (compiler.dialect mode).flagged = .ok widened) :
    (compiler.compile (.written other) mode).outcome = .ok (.single widened) ∧
      (compiler.compile (.written other) mode).compiler = (compiler.compile (.written value) mode).compiler := by
  obtain ⟨last, same, run⟩ := run_widened read readToo widens answered
  rw [done] at run
  rw [compile_eq compiler (.written other), run, same]
  exact ⟨rfl, rfl⟩

/-- It fails where that schema cannot be widened. -/
theorem compile_unwidened (read : TypeSpec.read false value = .ok plain)
    (readToo : TypeSpec.read false other = .ok spec) (widens : plain.Widens spec)
    (answered : (compiler.compile (.written value) mode).outcome = .ok (.single schema)) {fault : Fault}
    (failed : schema.nullable? (compiler.dialect mode).flagged = .error fault) :
    (compiler.compile (.written other) mode).outcome = .error (.unusable fault) := by
  obtain ⟨last, -, run⟩ := run_widened read readToo widens answered
  rw [failed] at run
  rw [compile_eq, run]

end Compiler

namespace Setting

variable (setting : Setting)

/-- What stands for a named type: its body, or a reference to it when hoisting. -/
inductive Stands (definition : Definition) : Schema → Prop where
  | written {body : Schema} (inline : setting.hoisting = false)
      (shown : setting.ShowsBody (fun _ _ => True) definition body) : Stands definition body
  | referred (hoists : setting.hoisting = true) : Stands definition (.reference setting.dialect.base definition.name)

/-- The schema of a reference before null is admitted in it. What is inside is left open. -/
inductive Builds : TypeSpec → Schema → Prop where
  | array {element : TypeSpec} {required nullable : Bool} (items : Schema) :
      Builds (.array element required nullable) (.array items)
  | fragment {name : String} {required nullable : Bool} {value : Value}
      (supplies : setting.catalog.Supplies setting.registry name value) :
      Builds (.named name required nullable) (.ofValue value)
  | type {name : String} {required nullable : Bool} {definition : Definition} {stand : Schema}
      (denotes : setting.catalog.Denotes setting.registry (.named name required nullable) definition)
      (named : definition.kind.isNamed = true) (stands : setting.Stands definition stand) :
      Builds (.named name required nullable) stand

/-- The schema of a reference is what is built for it, with null admitted if the reference says so. -/
def Forms (spec : TypeSpec) (schema : Schema) : Prop :=
  ∃ stand, setting.Builds spec stand ∧ setting.widened spec.nullable stand = .ok schema

variable {setting}

theorem Forms.optional {spec : TypeSpec} {schema : Schema} :
    setting.Forms spec.optional schema ↔ setting.Forms spec schema := by
  constructor
  all_goals
    rintro ⟨stand, builds, widened⟩
    cases spec with
    | array =>
      cases builds with
      | array items => exact ⟨_, .array items, widened⟩
    | named =>
      cases builds with
      | fragment supplies => exact ⟨_, .fragment supplies, widened⟩
      | type denotes named stands => exact ⟨_, .type denotes named stands, widened⟩

variable (setting) in
def forming (built : setting.catalog.OfDefinitions) : Discipline setting where
  rules _ :=
    { invariant := fun progress => ∀ entry ∈ progress.known, setting.Forms entry.1 entry.2
      growth := fun _ _ => True
      refl := fun _ => trivial
      trans := fun _ _ => trivial }
  admits _ _ := True
  enters _ kind entry := ∃ definition, entry = .checked definition ∧ kind = definition.kind
  shows _ spec schema _ := setting.Forms spec schema
  stands _ entry nullable schema _ := ∃ definition stand, entry = .checked definition ∧
    setting.Stands definition stand ∧ setting.widened nullable stand = .ok schema
  stable _ _ _ _ _ _ forms := forms
  silent _ known := ⟨known, trivial⟩
  recalled known _ found := Forms.optional.mp (known _ (Record.mem_of_lookup found))
  remember known _ forms := ⟨List.forall_mem_cons.mpr ⟨Forms.optional.mpr forms, known⟩, trivial⟩
  element _ := trivial
  array _ widened := ⟨_, .array _, widened⟩
  primitive classified widened := ⟨_, .fragment (.primitive classified), widened⟩
  scalar classified read widened := ⟨_, .fragment (.of_scalar built classified read), widened⟩
  named {_ _ _ _ _ kind _ _} kindNamed classified stood := by
    obtain ⟨definition, stand, rfl, stands, widened⟩ := stood
    have named : definition.kind.isNamed = true := classify_checked classified ▸ kindNamed
    exact ⟨stand, .type ⟨kind, classified⟩ named stands, widened⟩
  entered _ classified := by
    obtain ⟨definition, rfl⟩ := built.checked (mem_of_classify_eq classified)
    exact ⟨definition, rfl, (classify_checked classified).symm⟩
  mentioned _ _ _ _ _ := trivial
  asked _ _ := trivial
  enter known := known
  inlined inline _ entered _ _ known _ shown widened := by
    obtain ⟨definition, rfl, -⟩ := entered
    have body := Setting.ShowsBody.imp shown fun _ _ _ _ => trivial
    exact ⟨known, trivial, definition, _, rfl, .written inline body, widened⟩
  referred hoists _ entered known _ widened := by
    obtain ⟨definition, rfl, -⟩ := entered
    cases known
    exact ⟨definition, _, rfl, .referred hoists, widened⟩
  hoisted _ _ _ _ _ _ _ known _ _ := ⟨known, trivial⟩

end Setting

namespace Compiler

variable {compiler : Compiler} {mode : Mode} {value : Value} {spec : TypeSpec} {schema : Schema}

theorem forms_of_answered (built : compiler.catalog.OfDefinitions) (read : TypeSpec.read false value = .ok spec)
    (answered : (compiler.compile (.written value) mode).outcome = .ok (.single schema)) :
    (compiler.setting mode).Forms spec schema := by
  obtain ⟨progress, run, -⟩ := compile_ok answered
  let discipline := (compiler.setting mode).forming built
  have received : discipline.Receives (.written value) := fun _ _ => trivial
  have nothing : ∀ entry ∈ (compiler.start (.written value) mode).known,
      (compiler.setting mode).Forms entry.1 entry.2 := fun _ member => nomatch member
  obtain ⟨-, -, answers⟩ := discipline.ensures_ofReferent _ received _ _ _ nothing run
  cases answers with
  | reference again forms =>
    cases read.symm.trans again
    exact forms

/-- The body that a call writes for a type given as an object: the answer itself, or what is stored under the name of
the type, which has to be new. -/
def WritesBody (compiler : Compiler) (mode : Mode) (definition : Definition) (body : Schema) : Prop :=
  let call := compiler.compile (.entry (.checked definition)) mode
  if mode.isHoisting then
    definition.name ∉ Record.names (compiler.schemasFor mode) ∧ (∃ compiled, call.outcome = .ok compiled) ∧
      Record.find? (call.compiler.schemasFor mode) definition.name = some body
  else call.outcome = .ok (.single body)

private theorem occurs_of_object {definition : Definition} (named : definition.kind.isNamed = true)
    {compiled : Compiled} (answered : (compiler.compile (.entry (.checked definition)) mode).outcome = .ok compiled) :
    ∃ schema progress, compiled = .single schema ∧
      (compiler.compile (.entry (.checked definition)) mode).compiler =
        compiler.setTable (compiler.dialect mode) progress.table ∧
      (compiler.setting mode).Occurs [] (.checked definition) false
        (fun _ => compileBody (compiler.setting mode) ([] ++ [(Entry.checked definition).name]) definition.kind
          (.checked definition)) (compiler.start (.entry (.checked definition)) mode) schema progress := by
  obtain ⟨progress, run, same⟩ := compile_ok answered
  rw [Compiled.ofReferent, Compiled.ofDefinition_named named] at run
  obtain ⟨schema, middle, ran, last⟩ := Walk.run_bind_ok.mp run
  obtain ⟨rfl, rfl⟩ := Walk.run_pure_ok.mp last
  exact ⟨schema, progress, rfl, same, Setting.occurs_of_run ran⟩

/-- A body that a call writes was compiled from the definition, with nothing compiled before it. -/
theorem WritesBody.ran {definition : Definition} {body : Schema} (named : definition.kind.isNamed = true)
    (writes : compiler.WritesBody mode definition body) :
    ∃ before after, before.known = [] ∧
      (compileBody (compiler.setting mode) ([] ++ [(Entry.checked definition).name]) definition.kind
        (.checked definition)).run before = .ok body after := by
  unfold WritesBody at writes
  split at writes
  next hoists =>
    obtain ⟨new, ⟨compiled, answered⟩, found⟩ := writes
    obtain ⟨schema, progress, -, same, occurs⟩ := occurs_of_object named answered
    rw [schemasFor, same] at found
    change Record.find? ((compiler.setTable (compiler.dialect mode) _).table (compiler.dialect mode)) _ = _ at found
    rw [table_setTable_self] at found
    cases occurs with
    | inlined inline => exact absurd (inline.symm.trans hoists) Bool.false_ne_true
    | reused _ own known =>
      cases own
      exact absurd known new
    | recursive _ _ _ inside => cases inside
    | hoisted _ own _ _ ran =>
      cases own
      rw [Record.find?_set, if_pos rfl] at found
      cases found
      exact ⟨_, _, rfl, ran⟩
  next inline =>
    obtain ⟨schema, progress, single, -, occurs⟩ := occurs_of_object named writes
    cases single
    cases occurs with
    | inlined _ _ ran widened =>
      cases widened
      exact ⟨_, _, rfl, ran⟩
    | reused hoists | recursive hoists | hoisted hoists => exact absurd hoists inline

/-- The references of a body that a call writes are formed like any others. -/
theorem WritesBody.shown {definition : Definition} {body : Schema} (built : compiler.catalog.OfDefinitions)
    (named : definition.kind.isNamed = true) (writes : compiler.WritesBody mode definition body) :
    (compiler.setting mode).ShowsBody (compiler.setting mode).Forms definition body := by
  obtain ⟨before, after, fresh, run⟩ := writes.ran named
  let discipline := (compiler.setting mode).forming built
  have nothing : ∀ entry ∈ before.known, (compiler.setting mode).Forms entry.1 entry.2 := by
    rw [fresh]
    exact fun _ member => nomatch member
  exact (Rules.Ensures.definitionBody definition (discipline.stable _)
    (fun spec _ => discipline.ensures_compileSpec _ spec trivial) before body after nothing run).2.2

end Compiler

end Schemata
