import Schemata.Proofs.HoistedTypes

/-! Where stored bodies come from. A table keeps the first body that is stored under a name. In the catalog
a name has one definition, but an object that is given to a call need not be in the catalog: from then on
its body stands for every type with its name. -/

namespace Schemata

/-- Only checked definitions are registered, and primitives stay as they are. Any object may be given. -/
def Action.IsChecked : Action → Prop
  | .compile .. | .compileParameters .. => True
  | .registerType _ entry => ∃ definition, entry = .checked definition
  | .registerPrimitive .. => False

namespace Compiler

/-- A definition whose body may be in the table of a dialect after some calls. -/
def Source (compiler : Compiler) (calls : List (Referent × Mode)) (dialect : Dialect) (definition : Definition) : Prop :=
  .checked definition ∈ compiler.catalog.toList ∨ ∃ mode, (.entry (.checked definition), mode) ∈ calls ∧
    mode.isHoisting = true ∧ compiler.dialect mode = dialect

structure Sourced (compiler : Compiler) (calls : List (Referent × Mode)) : Prop where
  built : compiler.catalog.OfDefinitions
  stems : ∀ dialect, ∀ entry ∈ compiler.table dialect, (compiler.hoisting dialect).Stems (compiler.Source calls dialect)
    (· ∈ Record.names (compiler.table dialect)) entry.1 entry.2

variable {compiler : Compiler} {given : Referent} {mode : Mode} {calls : List (Referent × Mode)} {compiled : Compiled}

private def Supply (compiler : Compiler) (given : Referent) (definition : Definition) : Prop :=
  .checked definition ∈ compiler.catalog.toList ∨ given = .entry (.checked definition)

private def Stored (compiler : Compiler) (given : Referent) (mode : Mode) (names : String → Prop) (name : String)
    (body : Schema) : Prop :=
  (name, body) ∈ compiler.table (compiler.dialect mode) ∨
    (compiler.hoisting (compiler.dialect mode)).Stems (compiler.Supply given) names name body

private def supplying (built : compiler.catalog.OfDefinitions) (given : Referent) (mode : Mode) :
    Discipline (compiler.hoisting (compiler.dialect mode)) :=
  (compiler.hoisting (compiler.dialect mode)).outlining rfl built (compiler.Supply given) (compiler.Stored given mode)
    (fun _ _ _ uses => .inl (Catalog.Uses.held uses))
    (fun _ _ _ _ stored implies => stored.imp_right fun stems => stems.imp implies)
    (fun _ definition _ own named shown => .inr ⟨definition, own, rfl, named, shown⟩)

private theorem supplying_admits (built : compiler.catalog.OfDefinitions) (chain : List Name) (spec : TypeSpec) :
    (supplying built given mode).admits chain spec :=
  fun _ denotes => .inl denotes.held

private theorem supplying_receives (built : compiler.catalog.OfDefinitions) :
    (supplying built given mode).Receives given :=
  Discipline.receives_of_admits _ (supplying_admits built []) fun definition same => ⟨definition, rfl, rfl, .inr same⟩

private theorem start_outlines (given : Referent) (mode : Mode) (chain : List Name) :
    (compiler.hoisting (compiler.dialect mode)).Outlines (compiler.Stored given mode) chain (compiler.start given mode) :=
  ⟨nofun, fun _ => .inl⟩

/-- What is in the table after a hoisting call was there before or is the outline of something the call
may store. -/
theorem compile_sources (built : compiler.catalog.OfDefinitions) (hoists : mode.isHoisting = true)
    (answered : (compiler.compile given mode).outcome = .ok compiled) :
    ∃ table, (compiler.compile given mode).compiler = compiler.setTable (compiler.dialect mode) table ∧
      (∀ name ∈ Record.names (compiler.table (compiler.dialect mode)), name ∈ Record.names table) ∧
      (∀ entry ∈ table, entry ∈ compiler.table (compiler.dialect mode) ∨
        (compiler.hoisting (compiler.dialect mode)).Stems (compiler.Supply given) (· ∈ Record.names table)
          entry.1 entry.2) ∧
      (compiler.hoisting (compiler.dialect mode)).Answers
        ((compiler.hoisting (compiler.dialect mode)).Settled (· ∈ Record.names table))
        (fun entry _ => ∃ name ∈ Record.names table, entry.name = .text name) given compiled := by
  obtain ⟨progress, run, same⟩ := compile_ok answered
  rw [setting_eq_hoisting hoists] at run
  obtain ⟨kept, grown, answers⟩ := (supplying built given mode).ensures_ofReferent given (supplying_receives built)
    _ _ _ (start_outlines given mode []) run
  refine ⟨progress.table, same, grown.kept, fun entry member => ?_, ?_⟩
  · exact (kept.table entry member).imp_right fun stems => stems.imp fun name refers => refers.settled.2
  · refine answers.imp (fun spec schema settled => settled.imp fun name refers => refers.settled.2) ?_
    intro entry schema stands
    obtain ⟨name, same, refers, -⟩ := stands
    exact ⟨name, refers.settled.2, same⟩

theorem Source.later {dialect : Dialect} {definition : Definition} (source : compiler.Source calls dialect definition)
    (more : List (Referent × Mode)) : compiler.Source (calls ++ more) dialect definition := by
  refine source.imp_right fun found => ?_
  obtain ⟨called, call, rest⟩ := found
  exact ⟨called, List.mem_append_left _ call, rest⟩

private def Stemming (compiler : Compiler) (calls : List (Referent × Mode)) (dialect : Dialect) (table : Table) : Prop :=
  ∀ entry ∈ table, (compiler.hoisting dialect).Stems (compiler.Source calls dialect) (· ∈ Record.names table)
    entry.1 entry.2

private theorem Sourced.compile (sourced : compiler.Sourced calls)
    (answered : (compiler.compile given mode).outcome = .ok compiled) :
    (compiler.compile given mode).compiler.Sourced (calls ++ [(given, mode)]) := by
  have before (dialect : Dialect) :
      compiler.Stemming (calls ++ [(given, mode)]) dialect (compiler.table dialect) :=
    fun entry member => (sourced.stems dialect entry member).of_sources fun _ source => source.later _
  have after := compile_tables answered before fun hoists => by
    obtain ⟨table, same, grown, stems, -⟩ := compile_sources sourced.built hoists answered
    rw [same, table_setTable_self]
    intro entry member
    rcases stems entry member with old | new
    · exact (before _ entry old).imp grown
    · refine new.of_sources fun definition supply => supply.imp_right fun same => ?_
      exact ⟨mode, by simp [same], hoists, rfl⟩
  obtain ⟨progress, -, same⟩ := compile_ok answered
  rw [same] at after ⊢
  exact ⟨sourced.built, after⟩

/-- What calls and registrations keep, step by step, holds after a session of checked actions. -/
theorem checked_induction {property : Compiler → List (Referent × Mode) → Prop}
    (answers : ∀ {compiler calls given mode compiled}, property compiler calls →
      (compiler.compile given mode).outcome = .ok compiled →
      property (compiler.compile given mode).compiler (calls ++ [(given, mode)]))
    (registers : ∀ {compiler calls identifier definition catalog}, property compiler calls →
      compiler.catalog.register identifier (.checked definition) = .ok catalog →
      property { compiler with catalog } calls) {compiler : Compiler} {calls : List (Referent × Mode)}
    (begins : property compiler calls) {actions : List Action} (checked : ∀ action ∈ actions, action.IsChecked) :
    property (compiler.after actions) (calls ++ compiler.successes actions) := by
  induction actions generalizing compiler calls with
  | nil => simpa [successes, Compiler.after] using begins
  | cons action rest ih =>
    have next : property (compiler.act action) (calls ++ (compiler.success? action).toList) := by
      have own := checked action List.mem_cons_self
      have taken := compiler.step action
      unfold success?
      generalize compiler.act action = after at taken ⊢
      generalize compiler.answer action = answer at taken ⊢
      cases taken with
      | failed | refused => simpa using begins
      | primitive => exact own.elim
      | answered call succeeded => simpa [call] using answers begins succeeded
      | registered accepted =>
        obtain ⟨definition, rfl⟩ := own
        simpa using registers begins accepted
    have later := ih next fun other member => checked other (List.mem_cons_of_mem _ member)
    rwa [List.append_assoc] at later

theorem Sourced.after (sourced : compiler.Sourced calls) {actions : List Action}
    (checked : ∀ action ∈ actions, action.IsChecked) :
    (compiler.after actions).Sourced (calls ++ compiler.successes actions) := by
  refine checked_induction Sourced.compile (fun {_ _ _ _ catalog} sourced accepted => ?_) sourced checked
  obtain ⟨chosen, name, -, -, -, grown, -⟩ := Catalog.register_ok accepted
  have front : _ <+: catalog.entries := ⟨_, grown.symm⟩
  refine ⟨.register sourced.built accepted, fun dialect entry member => ?_⟩
  refine ((sourced.stems dialect entry member).of_grown front).of_sources fun definition source => ?_
  exact source.imp_left fun held => (front.map Prod.snd).subset held

private theorem names_of_answer {definition : Definition} {names : String → Prop} {setting : Setting}
    (starts : setting.catalog.Starts setting.registry given definition) (named : definition.kind.isNamed = true)
    (answers : setting.Answers (setting.Settled names) (fun entry _ => ∃ name, names name ∧ entry.name = .text name)
      given compiled) : names definition.name := by
  cases starts with
  | written read denotes =>
    cases answers with
    | reference again settled =>
      cases read.symm.trans again
      exact settled.listed definition denotes named
    | input again classified =>
      cases read.symm.trans again
      rw [← (Classified.entry.inj (Except.ok.inj (classified.symm.trans denotes.kind))).1] at named
      cases named
  | definition =>
    cases answers with
    | parameters | fragment => cases named
    | type _ stands =>
      obtain ⟨name, listed, same⟩ := stands
      cases same
      exact listed

/-- The body of an object that is given under a name that is new is its own. -/
private theorem outlined_of_object {definition : Definition} (built : compiler.catalog.OfDefinitions)
    (hoists : mode.isHoisting = true) (named : definition.kind.isNamed = true)
    (answered : (compiler.compile (.entry (.checked definition)) mode).outcome = .ok compiled)
    (absent : definition.name ∉ Record.names (compiler.table (compiler.dialect mode))) :
    ∃ body, Record.find? ((compiler.compile (.entry (.checked definition)) mode).compiler.table (compiler.dialect mode))
        definition.name = some body ∧
      (compiler.hoisting (compiler.dialect mode)).bodyOutline? definition = some body := by
  obtain ⟨progress, run, same⟩ := compile_ok answered
  rw [same, table_setTable_self]
  rw [setting_eq_hoisting hoists, Compiled.ofReferent, Compiled.ofDefinition_named named] at run
  obtain ⟨schema, middle, ran, run⟩ := Walk.run_bind_ok.mp run
  obtain ⟨rfl, rfl⟩ := Walk.run_pure_ok.mp run
  cases Setting.occurs_of_run ran with
  | inlined inline => cases inline
  | reused _ own known =>
    cases own
    exact absurd known absent
  | recursive _ _ _ inside => cases inside
  | @hoisted name body _ inner _ own _ _ wrote =>
    cases own
    let discipline := supplying built (.entry (.checked definition)) mode
    obtain ⟨-, -, shown⟩ := Rules.Ensures.definitionBody definition (discipline.stable _)
      (fun spec _ => discipline.ensures_compileSpec _ spec (supplying_admits built _ spec)) _ _ _ (start_outlines _ _ _) wrote
    refine ⟨body, by rw [Record.find?_set, if_pos rfl], ?_⟩
    exact Setting.bodyOutline?_eq_some (shown.imp fun _ _ _ settled => settled.outlined)

theorem new_sourced {catalog : Catalog} (built : catalog.OfDefinitions) (registry : Registry) (mode : Mode)
    (base? : Option String) : (new catalog registry mode base?).Sourced [] :=
  ⟨built, by simp [new, Compiler.table]⟩

/-- A call that hoists a type stores its body, unless there is one under its name already. -/
theorem Sourced.stored {definition : Definition} (sourced : compiler.Sourced calls) (hoists : mode.isHoisting = true)
    (starts : compiler.catalog.Starts compiler.registry given definition) (named : definition.kind.isNamed = true)
    (answered : (compiler.compile given mode).outcome = .ok compiled) :
    ∃ body, Record.find? ((compiler.compile given mode).compiler.table (compiler.dialect mode)) definition.name =
        some body ∧
      ((compiler.hoisting (compiler.dialect mode)).bodyOutline? definition = some body ∨
        Record.find? (compiler.table (compiler.dialect mode)) definition.name = some body ∧
          ∃ earlier, compiler.Source calls (compiler.dialect mode) earlier ∧ earlier.name = definition.name ∧
            (compiler.hoisting (compiler.dialect mode)).bodyOutline? earlier = some body) := by
  have outlined {sources : Definition → Prop} {names : String → Prop} {name : String} {body : Schema}
      (stems : (compiler.hoisting (compiler.dialect mode)).Stems sources names name body) :
      ∃ source, sources source ∧ source.name = name ∧
        (compiler.hoisting (compiler.dialect mode)).bodyOutline? source = some body := by
    obtain ⟨source, own, same, -, shown⟩ := stems
    exact ⟨source, own, same, Setting.bodyOutline?_eq_some (shown.imp fun _ _ _ settled => settled.outlined)⟩
  obtain ⟨table, after, -, stems, answers⟩ := compile_sources sourced.built hoists answered
  cases before : Record.find? (compiler.table (compiler.dialect mode)) definition.name with
  | some body =>
    obtain ⟨added, grown, -⟩ := (compile_appends answered).appended
    refine ⟨body, ?_, .inr ⟨rfl, ?_⟩⟩
    · rw [grown]
      exact Record.find?_append before
    · exact outlined (sourced.stems _ _ (Record.mem_of_find? before))
  | none =>
    have absent : definition.name ∉ Record.names (compiler.table (compiler.dialect mode)) := by
      rw [← Record.has_eq_false_iff, Record.has, before]
      rfl
    cases starts with
    | definition =>
      obtain ⟨body, found, own⟩ := outlined_of_object sourced.built hoists named answered absent
      exact ⟨body, found, .inl own⟩
    | written read denotes =>
      have listed : definition.name ∈ Record.names table := names_of_answer (.written read denotes) named answers
      obtain ⟨body, found⟩ := Option.isSome_iff_exists.mp (Record.has_iff.mpr listed)
      refine ⟨body, by rw [after, table_setTable_self, found], .inl ?_⟩
      rcases stems _ (Record.mem_of_find? found) with old | new
      · exact absurd (Record.mem_names_of_mem old) absent
      · -- nothing was given as an object, and in the catalog the name has one definition
        obtain ⟨source, supply, same, outline⟩ := outlined new
        rcases supply with held | impossible
        · cases sourced.built.eq_of_name held denotes.held (congrArg Name.text same)
          exact outline
        · cases impossible

/-- Under the name of a type that was compiled with hoisting stands its own body, or one that stood there
before and belongs to another source with that name: a type of the catalog, or an object that an earlier
call hoisted. If there is no other, the body is its own. -/
theorem first_body_stays (catalog : Catalog) (registry : Registry) (mode : Mode) (base? : Option String)
    (history : List Action) (built : catalog.OfDefinitions) (checked : ∀ action ∈ history, action.IsChecked) :
    let begun := new catalog registry mode base?
    let compiler := begun.after history
    ∀ given called definition compiled, called.isHoisting = true →
      compiler.catalog.Starts compiler.registry given definition → definition.kind.isNamed = true →
      (compiler.compile given called).outcome = .ok compiled →
      let dialect := compiler.dialect called
      let source := compiler.Source (begun.successes history) dialect
      let outline? := (compiler.hoisting dialect).bodyOutline?
      ∃ body, Record.find? ((compiler.compile given called).compiler.table dialect) definition.name = some body ∧
        (outline? definition = some body ∨ Record.find? (compiler.table dialect) definition.name = some body ∧
          ∃ earlier, source earlier ∧ earlier.name = definition.name ∧ outline? earlier = some body) ∧
        ((∀ other, source other → other.name = definition.name → other = definition) →
          outline? definition = some body) := by
  intro begun compiler given called definition compiled hoists starts named answered dialect source outline?
  have sourced : compiler.Sourced (begun.successes history) := (new_sourced built registry mode base?).after checked
  obtain ⟨body, found, stored⟩ := sourced.stored hoists starts named answered
  refine ⟨body, found, stored, fun only => ?_⟩
  rcases stored with own | ⟨-, earlier, isSource, same, outlined⟩
  · exact own
  · rw [← only earlier isSource same]
    exact outlined

/-- A type of the catalog is compiled while nothing else has its name, and then an object that has. -/
theorem first_body_stays_of_pet :
    let pet : Definition := .product "Pet" [⟨"id", .text "integer", none, none, none⟩] none none "application/json"
    let loose : Definition := .product "Pet" [⟨"tag", .text "string", none, none, none⟩] none none "application/json"
    let called : Mode := .union .jsonSchema .refSchema
    let begun := new .empty .builtins called none
    let before := begun.after [.registerType (some "Pet") (.checked pet)]
    let first := before.compile (.written (.text "Pet")) called
    let history : List Action := [.registerType (some "Pet") (.checked pet), .compile (.written (.text "Pet")) called]
    let dialect := first.compiler.dialect called
    let call := first.compiler.compile (.entry (.checked loose)) called
    (∃ compiled, first.outcome = .ok compiled) ∧
      Record.find? (first.compiler.table (before.dialect called)) "Pet" =
        (before.hoisting (before.dialect called)).bodyOutline? pet ∧
      (∃ compiled, call.outcome = .ok compiled) ∧
      ∃ body, Record.find? (call.compiler.table dialect) "Pet" = some body ∧
        ((first.compiler.hoisting dialect).bodyOutline? loose = some body ∨
          Record.find? (first.compiler.table dialect) "Pet" = some body ∧
            ∃ earlier, first.compiler.Source (begun.successes history) dialect earlier ∧ earlier.name = "Pet" ∧
              (first.compiler.hoisting dialect).bodyOutline? earlier = some body) := by
  intro pet loose called begun before first history dialect call
  have answered {outcome : Except CompileError Compiled} (succeeds : outcome.toOption.isSome = true) :
      ∃ compiled, outcome = .ok compiled := by
    obtain ⟨compiled, found⟩ := Option.isSome_iff_exists.mp succeeds
    exact ⟨compiled, toOption_eq_some.mp found⟩
  obtain ⟨compiled, one⟩ : ∃ compiled, first.outcome = .ok compiled := answered (by decide +kernel)
  obtain ⟨other, two⟩ : ∃ compiled, call.outcome = .ok compiled := answered (by decide +kernel)
  have hoists : called.isHoisting = true := by decide +kernel
  have reads : TypeSpec.read false (.text "Pet") = .ok (.named "Pet" false false) :=
    toOption_eq_some.mp (by decide +kernel)
  obtain ⟨own, found, -, alone⟩ := first_body_stays .empty .builtins called none
    [.registerType (some "Pet") (.checked pet)] .empty (by simp [Action.IsChecked]) _ called pet compiled hoists
    (.written reads ⟨.product, rfl⟩) rfl one
  obtain ⟨body, stands, stored, -⟩ := first_body_stays .empty .builtins called none history .empty
    (by simp [history, Action.IsChecked]) (.entry (.checked loose)) called loose other hoists (.definition loose) rfl two
  refine ⟨⟨compiled, one⟩, found.trans (alone fun source isSource _ => ?_).symm, ⟨other, two⟩, body, stands, stored⟩
  rcases isSource with held | ⟨_, call, -⟩
  · exact Entry.checked.inj (List.mem_singleton.mp held)
  · cases call

private def propertyNames : Schema → List String
  | .keywords parts =>
    match Record.find? parts "properties" with
    | some (.members members) => Record.names members
    | _ => []
  | .data _ => []

/-- The object is answered, but what stands under its name is not its body. -/
theorem given_object_not_stored :
    let pet : Definition := .product "Pet" [⟨"id", .text "integer", none, none, none⟩] none none "application/json"
    let loose : Definition := .product "Pet" [⟨"tag", .text "string", none, none, none⟩] none none "application/json"
    let called : Mode := .union .jsonSchema .refSchema
    let compiler := (new .empty .builtins called none).after
      [.registerType (some "Pet") (.checked pet), .compile (.written (.text "Pet")) called]
    let dialect := compiler.dialect called
    let call := compiler.compile (.entry (.checked loose)) called
    call.outcome.toOption.isSome = true ∧
      Record.find? (call.compiler.table dialect) "Pet" ≠ (compiler.hoisting dialect).bodyOutline? loose := by
  intro pet loose called compiler dialect call
  have stored : (Record.find? (call.compiler.table dialect) "Pet").map propertyNames = some ["id"] := by decide +kernel
  have own : ((compiler.hoisting dialect).bodyOutline? loose).map propertyNames = some ["tag"] := by decide +kernel
  refine ⟨by decide +kernel, fun same => ?_⟩
  rw [same, own] at stored
  exact absurd stored (by decide)

end Compiler

end Schemata
